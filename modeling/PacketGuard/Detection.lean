import PacketGuard.Ioc.Index
import PacketGuard.Packet.Frames
import PacketGuard.Rules.Rule

/-! # Detection looks at the packet, not at the capture

The rule matcher and both indicator matchers read the decoded headers and
names of a packet and never its captured length.  Bytes behind a complete IPv4
packet, such as the padding of the link layer, change nothing else; so they
cannot influence detection.
-/
namespace PacketGuard
open PacketGuard.Core PacketGuard.Packet PacketGuard.Rules

/-- Both packets set off the same rules and indicators, in a set and in an index. -/
structure SameDetection (md md' : PacketMetadata) : Prop where
  rules : ∀ rule, ruleMatchesPacket rule md = ruleMatchesPacket rule md'
  set : ∀ set, Ioc.matchPacket set md = Ioc.matchPacket set md'
  index : ∀ idx, Ioc.IndicatorIndex.matchPacket idx md = Ioc.IndicatorIndex.matchPacket idx md'

/-- The captured length is not looked at. -/
theorem sameDetection_capturedLength (md : PacketMetadata) (length : Nat) :
    SameDetection { md with capturedLength := length } md :=
  ⟨fun _ => rfl, fun _ => rfl, fun _ => rfl⟩

/-- **Padding cannot influence detection.**  Appending bytes to a frame that
holds a complete IPv4 packet changes the captured length only: the decoded
headers, the notes and the diagnostics stay the same, and so does every match. -/
theorem decodePacketPayload_padding {frame : List UInt8} {ts : Timestamp}
    {originalLength linkType : Nat}
    (h : CompleteFrame (decodePacketPayload ts (.ofVector frame) originalLength linkType).1
      (.ofVector frame)) (padding : List UInt8) :
    decodePacketPayload ts (.ofVector (frame ++ padding)) originalLength linkType =
        ({ (decodePacketPayload ts (.ofVector frame) originalLength linkType).1 with
            capturedLength := (frame ++ padding).length },
          (decodePacketPayload ts (.ofVector frame) originalLength linkType).2) ∧
      SameDetection (decodePacketPayload ts (.ofVector (frame ++ padding)) originalLength
        linkType).1
        (decodePacketPayload ts (.ofVector frame) originalLength linkType).1 := by
  have he : (ByteView.ofVector (frame ++ padding)).Extends (.ofVector frame) := by
    rw [ByteView.Extends, ByteView.toVector_ofVector, ByteView.toVector_ofVector]
    exact List.prefix_append frame padding
  have hdecode := decodePacketPayload_extends he h
  rw [ByteView.size_ofVector] at hdecode
  refine ⟨hdecode, ?_⟩
  rw [hdecode]
  exact sameDetection_capturedLength _ _

/-- An Ethernet frame with a UDP datagram of four bytes from port 1000 to port 2000. -/
def udpFrame : List UInt8 :=
  List.replicate 12 0 ++ [0x08, 0x00] ++
    [0x45, 0, 0, 32, 0, 0, 0, 0, 64, 17, 0, 0, 10, 0, 0, 1, 10, 0, 0, 2] ++
    [0x03, 0xe8, 0x07, 0xd0, 0, 12, 0, 0, 1, 2, 3, 4]

/-- The frame, padded by fourteen bytes. -/
theorem decodePacketPayload_padding_udpFrame :
    decodePacketPayload {} (.ofVector (udpFrame ++ List.replicate 14 0xff)) 60 1 =
        ({ (decodePacketPayload {} (.ofVector udpFrame) 60 1).1 with
            capturedLength := (udpFrame ++ List.replicate 14 0xff).length },
          (decodePacketPayload {} (.ofVector udpFrame) 60 1).2) ∧
      SameDetection (decodePacketPayload {} (.ofVector (udpFrame ++ List.replicate 14 0xff)) 60 1).1
        (decodePacketPayload {} (.ofVector udpFrame) 60 1).1 := by
  refine decodePacketPayload_padding ⟨by decide, fun eth heth => ?_⟩ _
  have hheader : eth = { etherType := 0x0800, headerLength := 14 } := by
    have hdecoded : (decodePacketPayload {} (.ofVector udpFrame) 60 1).1.ethernet =
        some { etherType := 0x0800, headerLength := 14 } := by decide
    rw [hdecoded] at heth
    cases heth
    rfl
  rw [hheader]
  decide

end PacketGuard
