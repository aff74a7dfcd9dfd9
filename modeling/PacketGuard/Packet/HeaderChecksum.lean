import PacketGuard.Core.ChecksumWords
import PacketGuard.Packet.Frames

/-! What the checksum of an IPv4 header says about the bytes of the header. -/
namespace PacketGuard.Packet
open PacketGuard.Core

/-- A decoded packet is valid when the checksum of its header is zero. -/
theorem checksumValid_iff {v : ByteView} {ip : IPv4Packet} (h : (parseIpv4Packet v).1 = .ok ip) :
    ip.checksumValid = true ↔
      internetChecksum (ByteView.ofVector (v.toVector.take ip.headerLength)) = 0 := by
  obtain ⟨hheader, rfl⟩ := parseIpv4Packet_ok h
  have hle : 0 + wireHeaderLength v ≤ v.size := by
    rw [Nat.zero_add]
    exact hheader.header
  have hsame : (v.sub 0 (wireHeaderLength v) hle).SameBytes
      (ByteView.ofVector (v.toVector.take (wireHeaderLength v))) := by
    rw [ByteView.SameBytes, ByteView.toVector_sub, ByteView.toVector_ofVector, List.drop_zero]
  simp only [readIpv4Header, ByteView.slice_eq_ok hle, beq_iff_eq, internetChecksum_congr hsame]

/-- **The checksum validates exactly the stored word**, the accumulator has the
exact sum of the words at every turn, and of two decoded packets whose headers
differ in one word, and there not by a zero and the other, at most one is valid. -/
theorem internetChecksum_exact (bytes : List UInt8) (heven : bytes.length % 2 = 0)
    (hlength : bytes.length ≤ 65534) :
    (∀ k w, 2 * k + 1 < bytes.length → w < 2 ^ 16 →
      (internetChecksum (ByteView.ofVector (setWord bytes k w)) = 0 ↔
        w = internetChecksum (ByteView.ofVector (setWord bytes k 0)) ∨
          internetChecksum (ByteView.ofVector (setWord bytes k 0)) = 0 ∧ w = 0xffff)) ∧
    (∀ count ≤ bytes.length / 2,
      sumWords (ByteView.ofVector bytes) 0 0 =
          sumWords (ByteView.ofVector bytes) (2 * count) (wordSum (ByteView.ofVector bytes) count) ∧
        wordSum (ByteView.ofVector bytes) count < 2 ^ 32) ∧
    ∀ v v' ip ip' k w, (parseIpv4Packet v).1 = .ok ip → (parseIpv4Packet v').1 = .ok ip' →
      v.toVector.take ip.headerLength = bytes →
        v'.toVector.take ip'.headerLength = setWord bytes k w →
      2 * k + 1 < bytes.length → w < 2 ^ 16 → w ≠ (ByteView.ofVector bytes).word k →
      ¬ ((ByteView.ofVector bytes).word k = 0 ∧ w = 0xffff) →
      ¬ ((ByteView.ofVector bytes).word k = 0xffff ∧ w = 0) →
      ip.checksumValid = true → ip'.checksumValid = false := by
  refine ⟨fun k w hk hw => internetChecksum_setWord_eq_zero_iff heven hlength hk hw, ?_, ?_⟩
  · intro count hcount
    have hsum := wordSum_le (ByteView.ofVector bytes) count
    exact ⟨sumWords_eq_wordSum hlength hcount, by omega⟩
  · intro v v' ip ip' k w hparse hparse' hbytes hchanged hk hw hne hup hdown hvalid
    rw [checksumValid_iff hparse, hbytes] at hvalid
    rw [Bool.eq_false_iff, ne_eq, checksumValid_iff hparse', hchanged]
    exact internetChecksum_setWord_ne_zero heven hlength hk hw hvalid hne hup hdown

/-- A header, with the word that is stored in its place for the checksum. -/
theorem internetChecksum_exact_stored :
    internetChecksum (ByteView.ofVector (setWord
        [0x45, 0, 0, 0x73, 0, 0, 0x40, 0, 0x40, 0x11, 0xb8, 0x61, 0xc0, 0xa8, 0, 1, 0xc0, 0xa8, 0,
          0xc7] 5 0xb861)) = 0 ↔
      0xb861 = internetChecksum (ByteView.ofVector (setWord
        [0x45, 0, 0, 0x73, 0, 0, 0x40, 0, 0x40, 0x11, 0xb8, 0x61, 0xc0, 0xa8, 0, 1, 0xc0, 0xa8, 0,
          0xc7] 5 0)) ∨
        internetChecksum (ByteView.ofVector (setWord
          [0x45, 0, 0, 0x73, 0, 0, 0x40, 0, 0x40, 0x11, 0xb8, 0x61, 0xc0, 0xa8, 0, 1, 0xc0, 0xa8, 0,
            0xc7] 5 0)) = 0 ∧
          0xb861 = 0xffff :=
  (internetChecksum_exact
    [0x45, 0, 0, 0x73, 0, 0, 0x40, 0, 0x40, 0x11, 0xb8, 0x61, 0xc0, 0xa8, 0, 1, 0xc0, 0xa8, 0, 0xc7]
    (by decide) (by decide)).1 5 0xb861 (by decide) (by decide)

end PacketGuard.Packet
