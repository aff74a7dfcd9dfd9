import PacketGuard.Lib.Faults
import PacketGuard.Packet.Frames

/-! # The decoders, with their arithmetic checked

The decoders of `packet/packet.cpp` once more, operation by operation: unsigned
subtractions, conversions to sixteen bits and slices are checked, and everything
else is as it was.

One conversion is open.  `internet_checksum` ends in `static_cast<std::uint16_t>(~sum)`:
the complement is taken of a 32-bit sum that has been folded to sixteen bits, so its
upper half is all ones, and the conversion cuts these off.  The decoders take a
parameter for it: under `Checked.truncate 16` it is meant to lose bits, and then each
decoder returns, and returns what the plain one does (`decodePacketPayloadChecked_eq`);
under `Checked.fit 16` it has to keep them all, which it never does
(`internetChecksumChecked_fit`).
-/
namespace PacketGuard.Packet
open PacketGuard.Core PacketGuard.Lib
open PacketGuard.Lib.Checked (ok_bind sub_eq_ok fit_eq_ok fit_eq_error)

/-! ## Bytes -/

/-- `slice`, which is never meant to fail where this one is used. -/
def sliceChecked (v : ByteView) (offset length : Nat) : Checked ByteView :=
  match v.slice offset length with
  | .ok s => .ok s
  | .error _ => .error .outOfRange

def hasBytesChecked (bytes : ByteView) (offset length : Nat) : Checked Bool :=
  if offset ≤ bytes.size then do
    let room ← Checked.sub bytes.size offset
    return length ≤ room
  else return false

/-- `read_be16`. -/
def readBe16Checked (p : Nat → UInt8) : Checked Nat :=
  Checked.fit 16 (((p 0).toNat <<< 8) ||| (p 1).toNat)

theorem sliceChecked_eq {v : ByteView} {offset length : Nat} (h : offset + length ≤ v.size) :
    sliceChecked v offset length = .ok (v.sub offset length h) := by
  rw [sliceChecked, ByteView.slice_eq_ok h]

@[simp] theorem hasBytesChecked_eq (v : ByteView) (offset length : Nat) :
    hasBytesChecked v offset length = .ok (hasBytes v offset length) := by
  unfold hasBytesChecked hasBytes
  by_cases h : offset ≤ v.size
  · rw [if_pos h, sub_eq_ok h, ok_bind, decide_eq_true h, Bool.true_and]
    rfl
  · rw [if_neg h, decide_eq_false h, Bool.false_and]
    rfl

theorem readBe16_lt (p : Nat → UInt8) : readBe16 p < 2 ^ 16 := by
  rw [readBe16_eq]
  have h0 := (p 0).toNat_lt
  have h1 := (p 1).toNat_lt
  omega

@[simp] theorem readBe16Checked_eq (p : Nat → UInt8) : readBe16Checked p = .ok (readBe16 p) :=
  fit_eq_ok (readBe16_lt p)

/-! ## The checksum -/

def sumWordsChecked (bytes : ByteView) (i sum : Nat) : Checked Nat :=
  if i + 1 < bytes.size then do
    let word ← readBe16Checked (bytes.ptr i)
    sumWordsChecked bytes (i + 2) (← Checked.fit 32 (sum + word))
  else return sum
termination_by bytes.size - i

/-- `complement` converts `~sum` to sixteen bits. -/
def internetChecksumChecked (complement : Nat → Checked Nat) (bytes : ByteView)
    (initial : Nat := 0) :
    Checked Nat := do
  let sum ← sumWordsChecked bytes 0 initial
  let sum ←
    if bytes.size % 2 = 1 then do
      let last ← Checked.sub bytes.size 1
      let word ← Checked.fit 16 ((bytes.data last).toNat <<< 8)
      Checked.fit 32 (sum + word)
    else pure sum
  complement (2 ^ 32 - 1 - foldCarries sum)

theorem sumWordsChecked_eq {v : ByteView} {i sum : Nat} (h : sum + (v.size - i) * 2 ^ 16 < 2 ^ 32) :
    sumWordsChecked v i sum = .ok (sumWords v i sum) ∧
      sumWords v i sum ≤ sum + (v.size - i) * 2 ^ 16 := by
  fun_induction sumWords v i sum with
  | case1 i sum hi ih =>
    have hword := readBe16_lt (v.ptr i)
    have hmod : (sum + readBe16 (v.ptr i)) % 2 ^ 32 = sum + readBe16 (v.ptr i) :=
      Nat.mod_eq_of_lt (by omega)
    rw [hmod] at ih ⊢
    obtain ⟨hok, hle⟩ := ih (by omega)
    rw [sumWordsChecked, if_pos hi, readBe16Checked_eq, ok_bind, fit_eq_ok (by omega), ok_bind, hok]
    exact ⟨rfl, by omega⟩
  | case2 i sum hi =>
    rw [sumWordsChecked, if_neg hi]
    exact ⟨rfl, by omega⟩

theorem foldCarries_lt {sum : Nat} : foldCarries sum < 2 ^ 16 := by
  fun_induction foldCarries sum with
  | case1 sum h =>
    rw [Nat.shiftRight_eq_div_pow] at h
    omega
  | case2 sum h ih => exact ih

/-- Up to its last conversion the checksum of a short view meets no fault. -/
theorem internetChecksumChecked_short (complement : Nat → Checked Nat) {v : ByteView}
    (h : v.size < 2 ^ 15) :
    ∃ sum, internetChecksumChecked complement v = complement (2 ^ 32 - 1 - foldCarries sum) ∧
      internetChecksum v = (2 ^ 32 - 1 - foldCarries sum) % 2 ^ 16 := by
  obtain ⟨hok, hle⟩ := @sumWordsChecked_eq v 0 0 (by omega)
  unfold internetChecksumChecked internetChecksum
  rw [hok, ok_bind]
  by_cases hodd : v.size % 2 = 1
  · have hlast : (v.data (v.size - 1)).toNat <<< 8 < 2 ^ 16 := by
      have hbyte := (v.data (v.size - 1)).toNat_lt
      rw [Nat.shiftLeft_eq]
      omega
    have hsum : sumWords v 0 0 + (v.data (v.size - 1)).toNat <<< 8 < 2 ^ 32 := by omega
    simp only [if_pos hodd]
    rw [sub_eq_ok (by omega), ok_bind, fit_eq_ok hlast, ok_bind, fit_eq_ok hsum, ok_bind,
      Nat.mod_eq_of_lt hlast, Nat.mod_eq_of_lt hsum]
    exact ⟨_, rfl, rfl⟩
  · simp only [if_neg hodd, pure_bind]
    exact ⟨_, rfl, rfl⟩

/-- The checksum of a short view, with the upper half of the complement cut off. -/
theorem internetChecksumChecked_eq {v : ByteView} (h : v.size < 2 ^ 15) :
    internetChecksumChecked (Checked.truncate 16) v = .ok (internetChecksum v) := by
  obtain ⟨sum, hchecked, hplain⟩ := internetChecksumChecked_short (Checked.truncate 16) h
  rw [hchecked, hplain, Checked.truncate]

/-- The complement of a folded sum never fits into sixteen bits. -/
theorem internetChecksumChecked_fit {v : ByteView} (h : v.size < 2 ^ 15) :
    internetChecksumChecked (Checked.fit 16) v = .error .overflow := by
  obtain ⟨sum, hchecked, -⟩ := internetChecksumChecked_short (Checked.fit 16) h
  have hlt := @foldCarries_lt sum
  rw [hchecked, fit_eq_error (by omega)]

/-! ## Link, network and transport layer -/

def parseEthernetChecked (bytes : ByteView) : Checked (Result EthernetFrame × Diagnostics) :=
  if bytes.size < 14 then return (failure "ethernet frame too short", [])
  else do
    let etherType ← readBe16Checked (bytes.ptr 12)
    let frame : EthernetFrame :=
      { destination := ⟨bytes.copy 0 6⟩, source := ⟨bytes.copy 6 6⟩, etherType }
    if frame.etherType = 0x8100 ∨ frame.etherType = 0x88a8 then
      if bytes.size < 18 then return (failure "tagged ethernet frame too short", [])
      else
        let etherType ← readBe16Checked (bytes.ptr 16)
        return (.ok { frame with etherType, headerLength := 18 },
          Diagnostics.info "ethernet.vlan".toList "VLAN tagged frame".toList 12)
    else return (.ok frame, [])

def readIpv4HeaderChecked (complement : Nat → Checked Nat) (bytes : ByteView)
    (headerLength totalLength : Nat) : Checked IPv4Packet := do
  let identification ← readBe16Checked (bytes.ptr 4)
  let flagsFragment ← readBe16Checked (bytes.ptr 6)
  let headerChecksum ← readBe16Checked (bytes.ptr 10)
  let hdr ← sliceChecked bytes 0 headerLength
  let checksum ← internetChecksumChecked complement hdr
  let payloadLength ← Checked.sub totalLength headerLength
  return {
    version := (bytes.data 0).toNat >>> 4
    ihl := (bytes.data 0).toNat &&& 0x0f
    dscpEcn := (bytes.data 1).toNat
    totalLength := totalLength
    identification := identification
    flagsFragment := flagsFragment
    ttl := (bytes.data 8).toNat
    protocol := (bytes.data 9).toNat
    headerChecksum := headerChecksum
    source := ⟨BitVec.ofNat 32 (readBe32 (bytes.ptr 12))⟩
    destination := ⟨BitVec.ofNat 32 (readBe32 (bytes.ptr 16))⟩
    checksumValid := checksum == 0
    fragmented := flagsFragment &&& 0x3fff != 0 || flagsFragment &&& 0x2000 != 0
    headerLength := headerLength
    payloadLength := payloadLength }

def parseIpv4PacketChecked (complement : Nat → Checked Nat) (bytes : ByteView) :
    Checked (Result IPv4Packet × Diagnostics) :=
  if bytes.size < 20 then return (failure "ipv4 packet too short", [])
  else
    let ihl := (bytes.data 0).toNat &&& 0x0f
    let headerLength := ihl * 4
    if (bytes.data 0).toNat >>> 4 ≠ 4 then return (failure "not an ipv4 packet", [])
    else if ihl < 5 ∨ bytes.size < headerLength then
      return (failure "invalid ipv4 header length", [])
    else do
      let totalLength ← readBe16Checked (bytes.ptr 2)
      let differs := decide (totalLength < headerLength ∨ bytes.size < totalLength)
      let lengthNote := if differs then
          Diagnostics.warn "ipv4.length".toList
            "IPv4 total length differs from captured bytes".toList 2
        else []
      if totalLength < headerLength then return (failure "invalid ipv4 total length", lengthNote)
      else
        let totalLength ← if differs then Checked.fit 16 bytes.size else pure totalLength
        let ip ← readIpv4HeaderChecked complement bytes headerLength totalLength
        return (.ok ip, lengthNote ++ ipv4Notes ip)

def parseTcpSegmentChecked (bytes : ByteView) : Checked (Result TcpSegment × Diagnostics) :=
  if bytes.size < 20 then return (failure "tcp segment too short", [])
  else
    let dataOffset := (bytes.data 12).toNat >>> 4
    let headerLen := dataOffset * 4
    if dataOffset < 5 ∨ bytes.size < headerLen then return (failure "invalid tcp data offset", [])
    else do
      let sourcePort ← readBe16Checked (bytes.ptr 0)
      let destinationPort ← readBe16Checked (bytes.ptr 2)
      let flags ←
        Checked.fit 16 ((((bytes.data 12).toNat &&& 0x01) <<< 8) ||| (bytes.data 13).toNat)
      let window ← readBe16Checked (bytes.ptr 14)
      let checksum ← readBe16Checked (bytes.ptr 16)
      let urgent ← readBe16Checked (bytes.ptr 18)
      let payloadLength ← Checked.sub bytes.size headerLen
      let options ←
        if 20 < headerLen then pure (bytes.copy 20 (← Checked.sub headerLen 20)) else pure []
      return (.ok
          { sourcePort, destinationPort, sequence := readBe32 (bytes.ptr 4),
            acknowledgment := readBe32 (bytes.ptr 8), dataOffset, flags, window, checksum, urgent,
            payloadLength, options },
        if flags &&& 0x006 = 0x006 then
          Diagnostics.warn "tcp.flags".toList "TCP SYN and RST both set".toList 13
        else [])

def parseUdpDatagramChecked (bytes : ByteView) : Checked (Result UdpDatagram × Diagnostics) :=
  if bytes.size < 8 then return (failure "udp datagram too short", [])
  else do
    let sourcePort ← readBe16Checked (bytes.ptr 0)
    let destinationPort ← readBe16Checked (bytes.ptr 2)
    let length ← readBe16Checked (bytes.ptr 4)
    let checksum ← readBe16Checked (bytes.ptr 6)
    if length < 8 then return (failure "invalid udp length", [])
    else
      let clipped := decide (bytes.size < length)
      let length ← if clipped then Checked.fit 16 bytes.size else pure length
      let payloadLength ← Checked.sub length 8
      return (.ok { sourcePort, destinationPort, length, checksum, payloadLength },
        if clipped then
          Diagnostics.warn "udp.length".toList "UDP length exceeds captured payload".toList 4
        else [])

theorem parseEthernetChecked_eq (v : ByteView) :
    parseEthernetChecked v = .ok (parseEthernet v) := by
  unfold parseEthernetChecked parseEthernet
  simp only [readBe16Checked_eq, ok_bind]
  repeat' split
  all_goals rfl

/-- The header is read without a fault wherever the lengths have been checked. -/
theorem readIpv4HeaderChecked_eq {v : ByteView} {headerLength totalLength : Nat}
    (hlen : headerLength ≤ v.size) (hshort : headerLength ≤ 60)
    (htotal : headerLength ≤ totalLength) :
    readIpv4HeaderChecked (Checked.truncate 16) v headerLength totalLength =
      .ok (readIpv4Header v headerLength totalLength) := by
  have hslice : 0 + headerLength ≤ v.size := by omega
  unfold readIpv4HeaderChecked readIpv4Header
  simp only [readBe16Checked_eq, ok_bind, ByteView.slice_eq_ok hslice, sliceChecked_eq hslice]
  rw [internetChecksumChecked_eq (by rw [ByteView.size_sub]; omega), ok_bind, sub_eq_ok htotal]
  rfl

theorem parseIpv4PacketChecked_eq (v : ByteView) :
    parseIpv4PacketChecked (Checked.truncate 16) v = .ok (parseIpv4Packet v) := by
  unfold parseIpv4PacketChecked parseIpv4Packet
  have hnibble : (v.data 0).toNat &&& 0x0f ≤ 15 := Nat.and_le_right
  have hword := readBe16_lt (v.ptr 2)
  simp only [readBe16Checked_eq, ok_bind]
  split
  · rfl
  split
  · rfl
  split
  · rfl
  split
  · rfl
  rename_i hheader htotal
  have hdiffers : (readBe16 (v.ptr 2) < ((v.data 0).toNat &&& 0x0f) * 4 ∨
      v.size < readBe16 (v.ptr 2)) ↔ v.size < readBe16 (v.ptr 2) := or_iff_right htotal
  simp only [hdiffers]
  by_cases hclip : v.size < readBe16 (v.ptr 2)
  · -- a clipped length is below the one on the wire
    simp only [hclip, decide_true, if_true]
    rw [fit_eq_ok (by omega), ok_bind, readIpv4HeaderChecked_eq (by omega) (by omega) (by omega),
      Nat.mod_eq_of_lt (by omega)]
    rfl
  · simp only [hclip, decide_false]
    rw [if_neg (by simp), if_neg (by simp), if_neg (by simp), pure_bind,
      readIpv4HeaderChecked_eq (by omega) (by omega) (by omega)]
    rfl

theorem parseTcpSegmentChecked_eq (v : ByteView) :
    parseTcpSegmentChecked v = .ok (parseTcpSegment v) := by
  have hflags : (((v.data 12).toNat &&& 0x01) <<< 8) ||| (v.data 13).toNat < 2 ^ 16 := by
    have hbit : (v.data 12).toNat &&& 0x01 ≤ 1 := Nat.and_le_right
    have hbyte := (v.data 13).toNat_lt
    rw [or_byte_eq _ hbyte]
    omega
  unfold parseTcpSegmentChecked parseTcpSegment
  simp only [readBe16Checked_eq, ok_bind, fit_eq_ok hflags]
  split
  · rfl
  split
  · rfl
  rename_i hheader
  rw [sub_eq_ok (by omega), ok_bind]
  by_cases hoptions : 20 < (v.data 12).toNat >>> 4 * 4
  · simp only [if_pos hoptions]
    rw [sub_eq_ok (by omega), ok_bind, pure_bind]
    rfl
  · simp only [if_neg hoptions, pure_bind]
    rfl

theorem parseUdpDatagramChecked_eq (v : ByteView) :
    parseUdpDatagramChecked v = .ok (parseUdpDatagram v) := by
  have hword := readBe16_lt (v.ptr 4)
  unfold parseUdpDatagramChecked parseUdpDatagram
  simp only [readBe16Checked_eq, ok_bind]
  split
  · rfl
  split
  · rfl
  by_cases hclip : v.size < readBe16 (v.ptr 4)
  · -- a clipped length is below the one on the wire
    simp only [hclip, decide_true, if_true]
    rw [fit_eq_ok (by omega), ok_bind, sub_eq_ok (by omega), ok_bind, Nat.mod_eq_of_lt (by omega)]
    rfl
  · simp only [hclip, decide_false, Bool.false_eq_true, if_false, pure_bind]
    rw [sub_eq_ok (by omega)]
    rfl

/-! ## DNS -/

/-- The loop of `read_dns_name`. -/
def readDnsNameFromChecked (bytes : ByteView) (depth : Nat) (name : Str) (offset : Nat) :
    Checked (Result (Str × Nat)) :=
  if _h : bytes.size ≤ offset then return failure "dns name outside message"
  else
    let len := (bytes.data offset).toNat
    if len = 0 then return .ok (name, offset + 1)
    else if len &&& 0xc0 = 0xc0 then
      if bytes.size ≤ offset + 1 then return failure "dns compression pointer truncated"
      else do
        let ptr ← Checked.fit 16 (((len &&& 0x3f) <<< 8) ||| (bytes.data (offset + 1)).toNat)
        if _h : 12 < depth + 1 then return failure "dns name compression loop"
        else
          match ← readDnsNameFromChecked bytes (depth + 1) [] ptr with
          | .error e => return .error e
          | .ok (suffix, _) =>
            return .ok (name ++ (if !name.isEmpty && !suffix.isEmpty then ['.'] else []) ++ suffix,
              offset + 2)
    else if len &&& 0xc0 ≠ 0 then return failure "invalid dns label marker"
    else do
      let inside ← hasBytesChecked bytes (offset + 1) len
      if !inside then return failure "dns label outside message"
      else
        let name' := name ++ (if !name.isEmpty then ['.'] else []) ++
          (bytes.copy (offset + 1) len).map dnsChar
        if 255 < name'.length then return failure "dns name too long"
        else readDnsNameFromChecked bytes depth name' (offset + 1 + len)
termination_by (12 - depth, bytes.size - offset)
decreasing_by
  · exact Prod.Lex.left _ _ (by omega)
  · exact Prod.Lex.right _ (by omega)

def readDnsNameChecked (bytes : ByteView) (offset : Nat) (depth : Nat := 0) :
    Checked (Result (Str × Nat)) :=
  if 12 < depth then return failure "dns name compression loop"
  else readDnsNameFromChecked bytes depth [] offset

def readQuestionChecked (bytes : ByteView) (offset : Nat) :
    Checked (Result (DnsQuestion × Nat)) := do
  match ← readDnsNameChecked bytes offset with
  | .error e => return .error e
  | .ok (name, offset) =>
    if !(← hasBytesChecked bytes offset 4) then return failure "dns question truncated"
    else
      let type ← readBe16Checked (bytes.ptr offset)
      let klass ← readBe16Checked (bytes.ptr (offset + 2))
      return .ok (⟨name, type, klass⟩, offset + 4)

/-- The loop of `render_rdata` over the strings of a TXT record. -/
def renderTxtChecked (data : ByteView) (txt : Str) (off : Nat) : Checked Str :=
  if off < data.size then do
    let len := (data.data off).toNat
    let room ← Checked.sub data.size (off + 1)
    if room < len then return txt
    else
      renderTxtChecked data
        (txt ++ (if !txt.isEmpty then [' '] else []) ++
          (data.copy (off + 1) len).map fun c => Char.ofNat c.toNat)
        (off + 1 + len)
  else return txt
termination_by data.size - off

def renderRdataChecked (type : Nat) (message data : ByteView) : Checked Str :=
  if type = 1 ∧ data.size = 4 then
    return ipv4ToString ⟨BitVec.ofNat 32 (readBe32 (data.ptr 0))⟩
  else if (type = 2 ∨ type = 5 ∨ type = 12) ∧ 0 < data.size then
    if data.start < message.start ∨ message.size < data.size then return bytesToHex data.toVector
    else do
      let distance ← Checked.sub data.start message.start
      let room ← Checked.sub message.size data.size
      if room < distance then return bytesToHex data.toVector
      else
        match ← readDnsNameChecked message distance with
        | .ok (name, _) => return name
        | .error _ => return bytesToHex data.toVector
  else if type = 16 ∧ 1 < data.size then renderTxtChecked data [] 0
  else return bytesToHex data.toVector

def readRecordChecked (bytes : ByteView) (offset : Nat) : Checked (Result (DnsRecord × Nat)) := do
  match ← readDnsNameChecked bytes offset with
  | .error e => return .error e
  | .ok (name, offset) =>
    if !(← hasBytesChecked bytes offset 10) then return failure "dns record truncated"
    else
      let type ← readBe16Checked (bytes.ptr offset)
      let klass ← readBe16Checked (bytes.ptr (offset + 2))
      let ttl := readBe32 (bytes.ptr (offset + 4))
      let len ← readBe16Checked (bytes.ptr (offset + 8))
      let rdata := offset + 10
      if !(← hasBytesChecked bytes rdata len) then return failure "dns rdata truncated"
      else
        let view ← sliceChecked bytes rdata len
        let dataText ← renderRdataChecked type bytes view
        return .ok ({ name, type, klass, ttl, data := bytes.copy rdata len, dataText }, rdata + len)

/-- The loops of `parse_dns_message`. -/
def readManyChecked {α : Type} (read : Nat → Checked (Result (α × Nat))) :
    Nat → Nat → Checked (Result (List α × Nat))
  | 0, offset => return .ok ([], offset)
  | count + 1, offset => do
    match ← read offset with
    | .error e => return .error e
    | .ok (x, offset) =>
      match ← readManyChecked read count offset with
      | .error e => return .error e
      | .ok (xs, offset) => return .ok (x :: xs, offset)

/-- The header and the four lists. -/
def readSectionsChecked (bytes : ByteView) : Checked (Result DnsMessage) := do
  let _id ← readBe16Checked (bytes.ptr 0)
  let _flags ← readBe16Checked (bytes.ptr 2)
  let qd ← readBe16Checked (bytes.ptr 4)
  let an ← readBe16Checked (bytes.ptr 6)
  let ns ← readBe16Checked (bytes.ptr 8)
  let ar ← readBe16Checked (bytes.ptr 10)
  match ← readManyChecked (readQuestionChecked bytes) qd 12 with
  | .error e => return .error e
  | .ok (questions, offset) =>
    match ← readManyChecked (readRecordChecked bytes) an offset with
    | .error e => return .error e
    | .ok (answers, offset) =>
      match ← readManyChecked (readRecordChecked bytes) ns offset with
      | .error e => return .error e
      | .ok (authorities, offset) =>
        match ← readManyChecked (readRecordChecked bytes) ar offset with
        | .error e => return .error e
        | .ok (additionals, _) =>
          return .ok (dnsHeader bytes questions answers authorities additionals)

def parseDnsMessageChecked (bytes : ByteView) : Checked (Result DnsMessage × Diagnostics) :=
  if bytes.size < 12 then return (failure "dns message too short", [])
  else do
    match ← readSectionsChecked bytes with
    | .error e => return (.error e, [])
    | .ok msg =>
      return (.ok msg,
        if msg.truncated then
          Diagnostics.warn "dns.truncated".toList "DNS message marked truncated".toList 2
        else [])

/-- A pointer has fourteen bits. -/
theorem pointer_lt (len : Nat) (low : UInt8) : ((len &&& 0x3f) <<< 8) ||| low.toNat < 2 ^ 16 := by
  have hhigh : len &&& 0x3f ≤ 0x3f := Nat.and_le_right
  have hlow := low.toNat_lt
  rw [or_byte_eq _ hlow]
  omega

theorem readDnsNameFromChecked_eq (v : ByteView) (depth : Nat) (name : Str) (offset : Nat) :
    readDnsNameFromChecked v depth name offset = .ok (readDnsNameFrom v depth name offset) := by
  fun_induction readDnsNameFrom v depth name offset with
  | case1 depth name offset hend =>
    rw [readDnsNameFromChecked, dif_pos hend]
    rfl
  | case2 depth name offset hin len h0 =>
    rw [readDnsNameFromChecked, dif_neg hin]
    exact if_pos h0
  | case3 depth name offset hin len h0 hptr hend =>
    rw [readDnsNameFromChecked, dif_neg hin]
    simp only [len] at *
    rw [if_neg h0, if_pos hptr, if_pos hend]
    rfl
  | case4 depth name offset hin len h0 hptr hin' hdepth =>
    rw [readDnsNameFromChecked, dif_neg hin]
    simp only [len] at *
    rw [if_neg h0, if_pos hptr, if_neg hin', fit_eq_ok (pointer_lt _ _), ok_bind, dif_pos hdepth]
    rfl
  | case5 depth name offset hin len h0 hptr hin' ptr hdepth e herr ih =>
    rw [readDnsNameFromChecked, dif_neg hin]
    simp only [len, ptr] at *
    rw [if_neg h0, if_pos hptr, if_neg hin', fit_eq_ok (pointer_lt _ _), ok_bind,
      dif_neg hdepth, ih, ok_bind, herr]
    rfl
  | case6 depth name offset hin len h0 hptr hin' ptr hdepth suffix _ hok ih =>
    rw [readDnsNameFromChecked, dif_neg hin]
    simp only [len, ptr] at *
    rw [if_neg h0, if_pos hptr, if_neg hin', fit_eq_ok (pointer_lt _ _), ok_bind,
      dif_neg hdepth, ih, ok_bind, hok]
    rfl
  | case7 depth name offset hin len h0 hptr hmark =>
    rw [readDnsNameFromChecked, dif_neg hin]
    simp only [len] at *
    rw [if_neg h0, if_neg hptr, if_pos hmark]
    rfl
  | case8 depth name offset hin len h0 hptr hmark hhas =>
    rw [readDnsNameFromChecked, dif_neg hin]
    simp only [len] at *
    rw [if_neg h0, if_neg hptr, if_neg hmark, hasBytesChecked_eq, ok_bind, if_pos hhas]
    rfl
  | case9 depth name offset hin len h0 hptr hmark hhas name' hlong =>
    rw [readDnsNameFromChecked, dif_neg hin]
    simp only [len, name'] at *
    rw [if_neg h0, if_neg hptr, if_neg hmark, hasBytesChecked_eq, ok_bind, if_neg hhas]
    exact if_pos hlong
  | case10 depth name offset hin len h0 hptr hmark hhas name' hlong ih =>
    rw [readDnsNameFromChecked, dif_neg hin]
    simp only [len, name'] at *
    rw [if_neg h0, if_neg hptr, if_neg hmark, hasBytesChecked_eq, ok_bind, if_neg hhas, ← ih]
    exact if_neg hlong

theorem readDnsNameChecked_eq (v : ByteView) (offset depth : Nat) :
    readDnsNameChecked v offset depth = .ok (readDnsName v offset depth) := by
  unfold readDnsNameChecked readDnsName
  split
  · rfl
  · exact readDnsNameFromChecked_eq _ _ _ _

theorem readQuestionChecked_eq (v : ByteView) (offset : Nat) :
    readQuestionChecked v offset = .ok (readQuestion v offset) := by
  unfold readQuestionChecked readQuestion
  rw [readDnsNameChecked_eq, ok_bind]
  rcases readDnsName v offset with e | ⟨name, offset⟩
  · rfl
  · simp only [hasBytesChecked_eq, readBe16Checked_eq, ok_bind]
    split <;> rfl

theorem renderTxtChecked_eq (v : ByteView) (txt : Str) (off : Nat) :
    renderTxtChecked v txt off = .ok (renderTxt v txt off) := by
  fun_induction renderTxt v txt off with
  | case1 txt off hoff len hlong =>
    rw [renderTxtChecked, if_pos hoff, sub_eq_ok hoff, ok_bind]
    exact if_pos hlong
  | case2 txt off hoff len hfits ih =>
    rw [renderTxtChecked, if_pos hoff, sub_eq_ok hoff, ok_bind]
    exact (if_neg hfits).trans ih
  | case3 txt off hoff =>
    rw [renderTxtChecked, if_neg hoff]
    rfl

theorem renderRdataChecked_eq (type : Nat) (message data : ByteView) :
    renderRdataChecked type message data = .ok (renderRdata type message data) := by
  unfold renderRdataChecked renderRdata
  split
  · rfl
  split
  · by_cases hbehind : data.start < message.start ∨ message.size < data.size
    · rw [if_pos hbehind, if_pos (by omega)]
      rfl
    · rw [if_neg hbehind, sub_eq_ok (by omega), ok_bind, sub_eq_ok (by omega), ok_bind]
      by_cases hroom : message.size - data.size < data.start - message.start
      · rw [if_pos hroom, if_pos (by omega)]
        rfl
      · rw [if_neg hroom, if_neg (by omega), readDnsNameChecked_eq, ok_bind]
        rcases readDnsName message (data.start - message.start) with e | ⟨name, after⟩ <;> rfl
  split
  · exact renderTxtChecked_eq _ _ _
  · rfl

theorem readRecordChecked_eq (v : ByteView) (offset : Nat) :
    readRecordChecked v offset = .ok (readRecord v offset) := by
  unfold readRecordChecked readRecord
  rw [readDnsNameChecked_eq, ok_bind]
  rcases readDnsName v offset with e | ⟨name, offset⟩
  · rfl
  · simp only [hasBytesChecked_eq, readBe16Checked_eq, ok_bind]
    split
    · rfl
    split
    · rfl
    rename_i hbody
    rw [Bool.not_eq_true', Bool.not_eq_false, hasBytes_iff] at hbody
    rw [sliceChecked_eq hbody, ByteView.slice_eq_ok hbody, ok_bind, renderRdataChecked_eq]
    rfl

theorem readManyChecked_eq {α : Type} {read : Nat → Result (α × Nat)}
    {readC : Nat → Checked (Result (α × Nat))} (hread : ∀ offset, readC offset = .ok (read offset))
    (count offset : Nat) :
    readManyChecked readC count offset = .ok (readMany read count offset) := by
  induction count generalizing offset with
  | zero => rfl
  | succ count ih =>
    unfold readManyChecked readMany
    rw [hread, ok_bind]
    rcases read offset with e | ⟨x, offset⟩
    · rfl
    · simp only [ih, ok_bind]
      rcases readMany read count offset with e | ⟨xs, offset⟩ <;> rfl

theorem readSectionsChecked_eq (v : ByteView) :
    readSectionsChecked v = .ok (readSections v) := by
  unfold readSectionsChecked readSections
  simp only [readBe16Checked_eq, ok_bind, readManyChecked_eq (readQuestionChecked_eq v),
    readManyChecked_eq (readRecordChecked_eq v)]
  rcases readMany (readQuestion v) (readBe16 (v.ptr 4)) 12 with e | ⟨questions, offset⟩
  · rfl
  simp only [bind, Except.bind]
  rcases readMany (readRecord v) (readBe16 (v.ptr 6)) offset with e | ⟨answers, offset⟩
  · rfl
  simp only
  rcases readMany (readRecord v) (readBe16 (v.ptr 8)) offset with e | ⟨authorities, offset⟩
  · rfl
  simp only
  rcases readMany (readRecord v) (readBe16 (v.ptr 10)) offset with e | ⟨additionals, offset⟩ <;> rfl

theorem parseDnsMessageChecked_eq (v : ByteView) :
    parseDnsMessageChecked v = .ok (parseDnsMessage v) := by
  unfold parseDnsMessageChecked parseDnsMessage
  split
  · rfl
  · rw [readSectionsChecked_eq, ok_bind]
    rcases readSections v with e | msg <;> rfl

/-! ## Packets -/

def decodeTransportChecked (md : PacketMetadata) (protocol : Nat) (transport : ByteView) :
    Checked (PacketMetadata × Diagnostics) :=
  if protocol = 6 then do
    match ← parseTcpSegmentChecked transport with
    | (.ok tcp, diag) => return ({ md with tcp := some tcp }, diag)
    | (.error e, diag) => return ({ md with notes := md.notes ++ [e.message] }, diag)
  else if protocol = 17 then do
    match ← parseUdpDatagramChecked transport with
    | (.ok udp, diag) =>
      let md := { md with udp := some udp }
      if udp.sourcePort = 53 ∨ udp.destinationPort = 53 then
        let dnsPayload ← sliceChecked transport 8 udp.payloadLength
        match ← parseDnsMessageChecked dnsPayload with
        | (.ok dns, diag') => return ({ md with dns := some dns }, diag ++ diag')
        | (.error e, diag') => return ({ md with notes := md.notes ++ [e.message] }, diag ++ diag')
      else return (md, diag)
    | (.error e, diag) => return ({ md with notes := md.notes ++ [e.message] }, diag)
  else return (md, [])

def decodeIpChecked (complement : Nat → Checked Nat) (md : PacketMetadata) (ipBytes : ByteView) :
    Checked (PacketMetadata × Diagnostics) := do
  match ← parseIpv4PacketChecked complement ipBytes with
  | (.error e, diag) => return ({ md with notes := md.notes ++ [e.message] }, diag)
  | (.ok ip, diag) =>
    let md := { md with ipv4 := some ip }
    let transport ← sliceChecked ipBytes ip.headerLength ip.payloadLength
    let (md, diag') ← decodeTransportChecked md ip.protocol transport
    return (md, diag ++ diag')

def decodePacketPayloadChecked (complement : Nat → Checked Nat) (timestamp : Timestamp)
    (bytes : ByteView) (originalLength : Nat) (linkType : Nat) :
    Checked (PacketMetadata × Diagnostics) :=
  let md : PacketMetadata :=
    { timestamp := timestamp, originalLength := originalLength, capturedLength := bytes.size }
  if linkType ≠ 1 then
    return ({ md with notes := ["unsupported link type ".toList ++ natToString linkType] }, [])
  else do
    match ← parseEthernetChecked bytes with
    | (.error e, diag) => return ({ md with notes := [e.message] }, diag)
    | (.ok eth, diag) =>
      let md := { md with ethernet := some eth }
      if eth.etherType ≠ 0x0800 then return (md, diag)
      else
        let length ← Checked.sub bytes.size eth.headerLength
        let ipBytes ← sliceChecked bytes eth.headerLength length
        let (md, diag') ← decodeIpChecked complement md ipBytes
        return (md, diag ++ diag')

/-- The DNS part of a decoded datagram lies in the bytes it was decoded from. -/
theorem parseUdpDatagram_ok {v : ByteView} {udp : UdpDatagram} {diag : Diagnostics}
    (h : parseUdpDatagram v = (.ok udp, diag)) :
    udp.length = 8 + udp.payloadLength ∧ udp.length ≤ v.size := by
  have hword := readBe16_lt (v.ptr 4)
  simp only [parseUdpDatagram] at h
  split at h
  · simp at h
  split at h
  · simp at h
  cases h
  by_cases hclip : v.size < readBe16 (v.ptr 4)
  · have hmod : v.size % 2 ^ 16 = v.size := Nat.mod_eq_of_lt (by omega)
    simp only [hclip, decide_true, if_true, hmod]
    omega
  · simp only [hclip, decide_false, Bool.false_eq_true, if_false]
    omega

theorem decodeTransportChecked_eq (md : PacketMetadata) (protocol : Nat) (v : ByteView) :
    decodeTransportChecked md protocol v = .ok (decodeTransport md protocol v) := by
  unfold decodeTransportChecked decodeTransport
  split
  · rw [parseTcpSegmentChecked_eq, ok_bind]
    rcases parseTcpSegment v with ⟨e | tcp, diag⟩ <;> rfl
  split
  · rw [parseUdpDatagramChecked_eq, ok_bind]
    rcases hudp : parseUdpDatagram v with ⟨e | udp, diag⟩
    · rfl
    obtain ⟨hlength, hle⟩ := parseUdpDatagram_ok hudp
    have hin : 8 + udp.payloadLength ≤ v.size := by omega
    simp only [sliceChecked_eq hin, ByteView.slice_eq_ok hin, parseDnsMessageChecked_eq, ok_bind]
    split
    · rcases parseDnsMessage (v.sub 8 udp.payloadLength hin) with ⟨e | dns, diag'⟩ <;> rfl
    · rfl
  · rfl

theorem decodeIpChecked_eq (md : PacketMetadata) (v : ByteView) :
    decodeIpChecked (Checked.truncate 16) md v = .ok (decodeIp md v) := by
  unfold decodeIpChecked decodeIp
  rw [parseIpv4PacketChecked_eq, ok_bind]
  rcases hip : parseIpv4Packet v with ⟨e | ip, diag⟩
  · rfl
  have hin : ip.headerLength + ip.payloadLength ≤ v.size := parseIpv4Packet_within (by rw [hip])
  simp only [sliceChecked_eq hin, ByteView.slice_eq_ok hin, decodeTransportChecked_eq, ok_bind]
  rfl

/-- **Decoding meets no fault**, whatever the bytes, apart from the conversion that
is meant to cut. -/
theorem decodePacketPayloadChecked_eq (ts : Timestamp) (v : ByteView)
    (originalLength linkType : Nat) :
    decodePacketPayloadChecked (Checked.truncate 16) ts v originalLength linkType =
      .ok (decodePacketPayload ts v originalLength linkType) := by
  unfold decodePacketPayloadChecked decodePacketPayload
  split
  · rfl
  rw [parseEthernetChecked_eq, ok_bind]
  rcases heth : parseEthernet v with ⟨e | eth, diag⟩
  · rfl
  have hle : eth.headerLength ≤ v.size := parseEthernet_within (by rw [heth])
  have hin : eth.headerLength + (v.size - eth.headerLength) ≤ v.size := by omega
  simp only [sub_eq_ok hle, sliceChecked_eq hin, ByteView.slice_eq_ok hin, decodeIpChecked_eq,
    ok_bind]
  split <;> rfl

end PacketGuard.Packet
