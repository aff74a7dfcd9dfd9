import PacketGuard.Core.ChecksumWords
import PacketGuard.Core.Ip

/-! `tcp_udp_checksum` (`core/checksum.cpp`): the Internet checksum of a
segment, begun with the sum of the words of the pseudo header.  Views of any
length here: an odd last byte is the high half of a word. -/
namespace PacketGuard.Core
open PacketGuard.Lib

def tcpUdpChecksum (src dst : IPv4Address) (protocol : UInt8) (segment : ByteView) : Nat :=
  let sum := 0
  let sum := (sum + ((src.value >>> 16) &&& 0xffff).toNat) % 2 ^ 32
  let sum := (sum + (src.value &&& 0xffff).toNat) % 2 ^ 32
  let sum := (sum + ((dst.value >>> 16) &&& 0xffff).toNat) % 2 ^ 32
  let sum := (sum + (dst.value &&& 0xffff).toNat) % 2 ^ 32
  let sum := (sum + protocol.toNat) % 2 ^ 32
  let sum := (sum + segment.size % 2 ^ 32) % 2 ^ 32
  internetChecksum segment sum

/-! ## The words of a text of bytes -/

/-- The sum of the words, without a bound. -/
def octetSum : List UInt8 → Nat
  | [] => 0
  | [b] => b.toNat * 256
  | b :: b' :: bytes => b.toNat * 256 + b'.toNat + octetSum bytes

theorem octetSum_le (bytes : List UInt8) : octetSum bytes ≤ (bytes.length + 1) / 2 * 65535 := by
  fun_induction octetSum bytes with
  | case1 => exact Nat.zero_le _
  | case2 b =>
    have hb := b.toNat_lt
    simp only [List.length_singleton]
    omega
  | case3 b b' bytes ih =>
    have hb := b.toNat_lt
    have hb' := b'.toNat_lt
    have hhalf : (bytes.length + 1 + 1 + 1) / 2 = (bytes.length + 1) / 2 + 1 := by omega
    rw [List.length_cons, List.length_cons, hhalf]
    omega

theorem octetSum_append {front : List UInt8} (heven : front.length % 2 = 0) (bytes : List UInt8) :
    octetSum (front ++ bytes) = octetSum front + octetSum bytes := by
  fun_induction octetSum front with
  | case1 => rw [List.nil_append, Nat.zero_add]
  | case2 b => cases heven
  | case3 b b' front ih =>
    have heven' : front.length % 2 = 0 := by
      rw [List.length_cons, List.length_cons] at heven
      omega
    rw [List.cons_append, List.cons_append, octetSum, ih heven',
      Nat.add_assoc (b.toNat * 256 + b'.toNat)]

theorem setWord_succ (b b' : UInt8) (bytes : List UInt8) (k w : Nat) :
    setWord (b :: b' :: bytes) (k + 1) w = b :: b' :: setWord bytes k w := rfl

/-- The sum, as the rest of it and the word that is set. -/
theorem octetSum_setWord {bytes : List UInt8} {k w : Nat} (hk : 2 * k + 1 < bytes.length)
    (hw : w < 2 ^ 16) :
    octetSum (setWord bytes k w) = octetSum (setWord bytes k 0) + w := by
  fun_induction octetSum bytes generalizing k with
  | case1 => cases hk
  | case2 b =>
    rw [List.length_singleton] at hk
    omega
  | case3 b b' bytes ih =>
    rw [List.length_cons, List.length_cons] at hk
    cases k with
    | zero =>
      have hset : ∀ u, setWord (b :: b' :: bytes) 0 u = UInt8.ofNat (u / 256) ::
          UInt8.ofNat (u % 256) :: bytes :=
        fun _ => rfl
      simp only [hset, octetSum, UInt8.toNat_ofNat']
      omega
    | succ k =>
      have hrest := ih (k := k) (by omega)
      rw [setWord_succ, setWord_succ, octetSum, octetSum]
      omega

/-! ## The checksum from an initial sum -/

/-- What is done with the last byte of a view of odd length. -/
def addOddByte (v : ByteView) (sum : Nat) : Nat :=
  if v.size % 2 = 1 then (sum + ((v.data (v.size - 1)).toNat <<< 8) % 2 ^ 16) % 2 ^ 32 else sum

theorem drop_toVector {v : ByteView} {i : Nat} (hi : i < v.size) :
    v.toVector.drop i = v.data i :: v.toVector.drop (i + 1) := by
  have hlt : i < v.toVector.length := by rwa [ByteView.length_toVector]
  rw [List.drop_eq_getElem_cons hlt, ByteView.data_eq_getD hi, List.getD_eq_getElem _ _ hlt]

/-- **Run lemma** for the loop: it adds up the words that are left, and the odd byte comes last. -/
theorem addOddByte_sumWords {v : ByteView} {i sum : Nat} (heven : i % 2 = 0) (hi : i ≤ v.size)
    (hfits : sum + octetSum (v.toVector.drop i) < 2 ^ 32) :
    addOddByte v (sumWords v i sum) = sum + octetSum (v.toVector.drop i) := by
  fun_induction sumWords v i sum with
  | case1 i sum hword ih =>
    have hdrop : octetSum (v.toVector.drop i) =
        readBe16 (v.ptr i) + octetSum (v.toVector.drop (i + 2)) := by
      rw [drop_toVector (by omega), drop_toVector hword, octetSum, readBe16_eq]
      rfl
    rw [hdrop] at hfits ⊢
    have hmod : (sum + readBe16 (v.ptr i)) % 2 ^ 32 = sum + readBe16 (v.ptr i) :=
      Nat.mod_eq_of_lt (by omega)
    rw [hmod] at ih ⊢
    rw [ih (by omega) (by omega) (by omega), Nat.add_assoc]
  | case2 i sum hend =>
    unfold addOddByte
    rcases Nat.eq_or_lt_of_le hi with rfl | hlt
    · rw [if_neg (by omega), List.drop_of_length_le (v.length_toVector).le, octetSum, Nat.add_zero]
    · obtain rfl : i = v.size - 1 := by omega
      have hlast : octetSum (v.toVector.drop (v.size - 1)) = (v.data (v.size - 1)).toNat * 256 := by
        rw [drop_toVector hlt, List.drop_of_length_le (by rw [ByteView.length_toVector]; omega),
          octetSum]
      have hbyte := (v.data (v.size - 1)).toNat_lt
      rw [if_pos (by omega), hlast, Nat.shiftLeft_eq]
      rw [hlast] at hfits
      omega

/-- **The checksum** is the complement of the initial sum and the words. -/
theorem internetChecksum_eq_octetSum {v : ByteView} {initial : Nat}
    (hfits : initial + octetSum v.toVector < 2 ^ 32) :
    internetChecksum v initial = 65535 - endAround 65535 (initial + octetSum v.toVector) := by
  have hrun : addOddByte v (sumWords v 0 initial) = initial + octetSum (v.toVector.drop 0) :=
    addOddByte_sumWords (Nat.zero_mod 2) (Nat.zero_le v.size) hfits
  have hle := endAround_le (show 0 < 65535 by decide) (initial + octetSum v.toVector)
  show (2 ^ 32 - 1 - foldCarries (addOddByte v (sumWords v 0 initial))) % 2 ^ 16 = _
  rw [hrun, List.drop_zero, foldCarries_eq]
  omega

/-! ## The pseudo header -/

/-- The pseudo header of a segment: the addresses, the protocol and the length. -/
def pseudoHeader (src dst : IPv4Address) (protocol : UInt8) (length : Nat) : List UInt8 :=
  bigEndian 4 src.value.toNat ++ bigEndian 4 dst.value.toNat ++ [0, protocol] ++ bigEndian 2 length

@[simp] theorem length_pseudoHeader (src dst : IPv4Address) (protocol : UInt8) (length : Nat) :
    (pseudoHeader src dst protocol length).length = 12 := by
  simp [pseudoHeader]

theorem octetSum_bigEndian_two {n : Nat} (hn : n < 2 ^ 16) : octetSum (bigEndian 2 n) = n := by
  simp only [bigEndian, List.nil_append, List.singleton_append, octetSum, UInt8.toNat_ofNat']
  omega

theorem octetSum_bigEndian_four (value : BitVec 32) :
    octetSum (bigEndian 4 value.toNat) =
      ((value >>> 16) &&& 0xffff).toNat + (value &&& 0xffff).toNat := by
  have hlow : ∀ x : BitVec 32, (x &&& 0xffff).toNat = x.toNat % 2 ^ 16 := by
    intro x
    rw [BitVec.toNat_and]
    exact Nat.and_two_pow_sub_one_eq_mod x.toNat 16
  have hlt := value.isLt
  rw [hlow, hlow, BitVec.toNat_ushiftRight, Nat.shiftRight_eq_div_pow]
  simp only [bigEndian, List.nil_append, List.cons_append, octetSum, UInt8.toNat_ofNat']
  omega

/-- The sum with which `tcp_udp_checksum` begins. -/
theorem tcpUdpChecksum_eq (src dst : IPv4Address) (protocol : UInt8) {segment : ByteView}
    (hsize : segment.size < 2 ^ 16) :
    tcpUdpChecksum src dst protocol segment =
      internetChecksum segment (octetSum (pseudoHeader src dst protocol segment.size)) := by
  have hsum : octetSum (pseudoHeader src dst protocol segment.size) =
      octetSum (bigEndian 4 src.value.toNat) + octetSum (bigEndian 4 dst.value.toNat) +
        protocol.toNat +
        segment.size := by
    rw [pseudoHeader, octetSum_append (by simp), octetSum_append (by simp),
      octetSum_append (by simp), octetSum_bigEndian_two hsize]
    simp [octetSum]
  have hsrc := octetSum_le (bigEndian 4 src.value.toNat)
  have hdst := octetSum_le (bigEndian 4 dst.value.toNat)
  have hprotocol := protocol.toNat_lt
  rw [length_bigEndian] at hsrc hdst
  rw [octetSum_bigEndian_four] at hsrc hdst hsum
  rw [octetSum_bigEndian_four] at hsum
  unfold tcpUdpChecksum
  simp only
  congr 1
  omega

/-! ## Exactness -/

/-- Texts of an even or an odd number of bytes, up to a segment with its pseudo header. -/
theorem internetChecksum_ofVector {bytes : List UInt8} (hlength : bytes.length < 2 ^ 17) :
    internetChecksum (.ofVector bytes) = 65535 - endAround 65535 (octetSum bytes) := by
  have hle := octetSum_le bytes
  have hfits : 0 + octetSum (ByteView.ofVector bytes).toVector < 2 ^ 32 := by
    rw [ByteView.toVector_ofVector]
    omega
  rw [internetChecksum_eq_octetSum hfits, ByteView.toVector_ofVector, Nat.zero_add]

/-- **One word** makes the checksum zero: the checksum of the others, or the other zero. -/
theorem internetChecksum_setWord_iff {bytes : List UInt8} (hlength : bytes.length < 2 ^ 17)
    {k w : Nat}
    (hk : 2 * k + 1 < bytes.length) (hw : w < 2 ^ 16) :
    internetChecksum (.ofVector (setWord bytes k w)) = 0 ↔
      w = internetChecksum (.ofVector (setWord bytes k 0)) ∨
        internetChecksum (.ofVector (setWord bytes k 0)) = 0 ∧ w = 0xffff := by
  rw [internetChecksum_ofVector (by rwa [length_setWord]),
    internetChecksum_ofVector (by rwa [length_setWord]), octetSum_setWord hk hw]
  generalize octetSum (setWord bytes k 0) = rest
  rw [← endAround_add_eq_top_iff (show 0 < 65535 by decide) rest (show w ≤ 65535 by omega)]
  have hle := endAround_le (show 0 < 65535 by decide) (rest + w)
  omega

/-- Two words in one place that both make the checksum zero are one word, or the two zeros. -/
theorem setWord_unique {bytes : List UInt8} (hlength : bytes.length < 2 ^ 17) {k w w' : Nat}
    (hk : 2 * k + 1 < bytes.length) (hw : w < 2 ^ 16) (hw' : w' < 2 ^ 16)
    (h : internetChecksum (.ofVector (setWord bytes k w)) = 0)
    (h' : internetChecksum (.ofVector (setWord bytes k w')) = 0) :
    w' = w ∨ w = 0 ∧ w' = 0xffff ∨ w = 0xffff ∧ w' = 0 := by
  rw [internetChecksum_setWord_iff hlength hk hw] at h
  rw [internetChecksum_setWord_iff hlength hk hw'] at h'
  omega

theorem tcpUdpChecksum_pseudoHeader (src dst : IPv4Address) (protocol : UInt8)
    {segment : List UInt8}
    (hsize : segment.length < 2 ^ 16) :
    tcpUdpChecksum src dst protocol (.ofVector segment) =
      internetChecksum (.ofVector (pseudoHeader src dst protocol segment.length ++ segment)) := by
  have hsum : octetSum (pseudoHeader src dst protocol segment.length) + octetSum segment <
      2 ^ 32 := by
    have hheader := octetSum_le (pseudoHeader src dst protocol segment.length)
    have hsegment := octetSum_le segment
    rw [length_pseudoHeader] at hheader
    omega
  rw [tcpUdpChecksum_eq src dst protocol (by simpa using hsize), ByteView.size_ofVector,
    internetChecksum_eq_octetSum (by simpa using hsum),
    internetChecksum_ofVector (by rw [List.length_append, length_pseudoHeader]; omega),
    octetSum_append (by simp), ByteView.toVector_ofVector]

theorem setWord_append (front bytes : List UInt8) (k w : Nat) (heven : front.length % 2 = 0) :
    front ++ setWord bytes k w = setWord (front ++ bytes) (front.length / 2 + k) w := by
  have hplace : 2 * (front.length / 2 + k) = front.length + 2 * k := by omega
  have hplace' : 2 * (front.length / 2 + k) + 1 = front.length + (2 * k + 1) := by omega
  rw [setWord, setWord, hplace', hplace, List.set_append_right _ _ (by omega),
    List.set_append_right _ _ (by omega), Nat.add_sub_cancel_left, Nat.add_sub_cancel_left]

/-- **The checksum of a segment** is the Internet checksum of its pseudo header and
itself; a stored word makes it zero exactly when it is the checksum of the rest, or
the other zero; and when one word of the addresses, the protocol, the length or the
segment is replaced, it stays zero only for one word or the two zeros. -/
theorem tcpUdpChecksum_exact (src dst : IPv4Address) (protocol : UInt8) (segment : List UInt8)
    (hsize : segment.length < 2 ^ 16) :
    tcpUdpChecksum src dst protocol (.ofVector segment) =
        internetChecksum (.ofVector (pseudoHeader src dst protocol segment.length ++ segment)) ∧
    (∀ k w, 2 * k + 1 < segment.length → w < 2 ^ 16 →
      (tcpUdpChecksum src dst protocol (.ofVector (setWord segment k w)) = 0 ↔
        w = tcpUdpChecksum src dst protocol (.ofVector (setWord segment k 0)) ∨
          tcpUdpChecksum src dst protocol (.ofVector (setWord segment k 0)) = 0 ∧ w = 0xffff)) ∧
    ∀ src' dst' protocol' segment' k w, segment'.length < 2 ^ 16 → 2 * k + 1 < 12 + segment.length →
      w < 2 ^ 16 →
      pseudoHeader src' dst' protocol' segment'.length ++ segment' =
        setWord (pseudoHeader src dst protocol segment.length ++ segment) k w →
      tcpUdpChecksum src dst protocol (.ofVector segment) = 0 →
      tcpUdpChecksum src' dst' protocol' (.ofVector segment') = 0 →
      let stored := (ByteView.ofVector
        (pseudoHeader src dst protocol segment.length ++ segment)).word k
      w = stored ∨ stored = 0 ∧ w = 0xffff ∨ stored = 0xffff ∧ w = 0 := by
  have hlength : (pseudoHeader src dst protocol segment.length ++ segment).length =
      12 + segment.length := by
    rw [List.length_append, length_pseudoHeader]
  refine ⟨tcpUdpChecksum_pseudoHeader src dst protocol hsize, ?_, ?_⟩
  · intro k w hk hw
    have hset : ∀ u, tcpUdpChecksum src dst protocol (.ofVector (setWord segment k u)) =
        internetChecksum
        (.ofVector (setWord (pseudoHeader src dst protocol segment.length ++ segment)
          (6 + k) u)) := by
      intro u
      rw [tcpUdpChecksum_pseudoHeader src dst protocol (by rwa [length_setWord]), length_setWord,
        setWord_append _ _ _ _ (by simp), length_pseudoHeader]
    rw [hset, hset]
    exact internetChecksum_setWord_iff (by omega) (by omega) hw
  · intro src' dst' protocol' segment' k w hsize' hk hw hchanged hzero hzero'
    have hplace : 2 * k + 1 < (pseudoHeader src dst protocol segment.length ++ segment).length := by
      omega
    rw [tcpUdpChecksum_pseudoHeader _ _ _ hsize, ← setWord_word hplace] at hzero
    rw [tcpUdpChecksum_pseudoHeader _ _ _ hsize', hchanged] at hzero'
    exact setWord_unique (by omega) hplace (ByteView.word_lt _ k) hw hzero hzero'

/-- A datagram with its checksum, from port 53 to port 53. -/
theorem tcpUdpChecksum_exact_datagram :
    tcpUdpChecksum ⟨0x0a000001⟩ ⟨0x08080808⟩ 17
      (.ofVector (setWord [0, 53, 0, 53, 0, 9, 0, 0, 65] 3 0xa461)) = 0 := by
  have hdatagram :=
    (tcpUdpChecksum_exact ⟨0x0a000001⟩ ⟨0x08080808⟩ 17 [0, 53, 0, 53, 0, 9, 0, 0, 65]
      (by decide)).2.1 3 0xa461 (by decide) (by decide)
  refine hdatagram.mpr (.inl ?_)
  rw [tcpUdpChecksum_eq _ _ _ (by decide), internetChecksum_eq_octetSum (by decide)]
  decide

end PacketGuard.Core
