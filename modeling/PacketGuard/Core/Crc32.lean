import PacketGuard.Core.ByteView
import PacketGuard.Lib.ShiftRegister

/-! `crc32` (`core/checksum.cpp`): the cyclic checksum of a byte view, its
register of 32 bits fed the low bit of every byte first. -/
namespace PacketGuard.Core
open PacketGuard.Lib

/-- `crc = (crc >> 1) ^ (0xedb88320u & (0u - (crc & 1u)))`. -/
def crcBit (crc : BitVec 32) : BitVec 32 :=
  (crc >>> 1) ^^^ (0xedb88320#32 &&& (0#32 - (crc &&& 1#32)))

/-- The inner loop. -/
def crcBits : Nat → BitVec 32 → BitVec 32
  | 0, crc => crc
  | bits + 1, crc => crcBits bits (crcBit crc)

/-- The outer loop, from byte `i`. -/
def crcBytes (bytes : ByteView) (i : Nat) (crc : BitVec 32) : BitVec 32 :=
  if i < bytes.size then crcBytes bytes (i + 1)
    (crcBits 8 (crc ^^^ (bytes.data i).toBitVec.setWidth 32)) else crc
termination_by bytes.size - i

def crc32 (bytes : ByteView) : BitVec 32 := ~~~crcBytes bytes 0 0xffffffff#32

/-! ## The register -/

/-- The taps of the register. -/
def crcTaps : BitVec 32 := 0xedb88320#32

theorem crcTaps_last : crcTaps.getLsbD (32 - 1) = true := by decide

theorem crcBit_eq (crc : BitVec 32) : crcBit crc = shiftStep crcTaps crc := by
  rw [crcBit, shiftStep, BitVec.and_one_eq_setWidth_ofBool_getLsbD]
  cases crc.getLsbD 0 <;> rfl

theorem crcBits_eq (bits : Nat) (crc : BitVec 32) :
    crcBits bits crc = (shiftStep crcTaps)^[bits] crc := by
  induction bits generalizing crc with
  | zero => rfl
  | succ bits ih => rw [crcBits, ih, crcBit_eq, Function.iterate_succ_apply]

/-- The bits of a byte, low bit first. -/
def byteBits (b : UInt8) : List Bool := (List.range 8).map b.toBitVec.getLsbD

/-- The bits of a message, in the order in which they are sent. -/
def bitsOf (bytes : List UInt8) : List Bool := bytes.flatMap byteBits

@[simp] theorem length_byteBits (b : UInt8) : (byteBits b).length = 8 := by simp [byteBits]

theorem getElem?_byteBits {b : UInt8} {i : Nat} (hi : i < 8) :
    (byteBits b)[i]? = some (b.toBitVec.getLsbD i) := by
  simp [byteBits, hi]

theorem bitsOf_cons (b : UInt8) (bytes : List UInt8) :
    bitsOf (b :: bytes) = byteBits b ++ bitsOf bytes := rfl

@[simp] theorem length_bitsOf (bytes : List UInt8) : (bitsOf bytes).length = 8 * bytes.length := by
  induction bytes with
  | nil => rfl
  | cons b bytes ih =>
    rw [bitsOf_cons, List.length_append, ih, length_byteBits, List.length_cons]
    omega

theorem getElem?_bitsOf {bytes : List UInt8} {i : Nat} (hi : i < 8 * bytes.length) :
    (bitsOf bytes)[i]? = some ((bytes.getD (i / 8) 0).toBitVec.getLsbD (i % 8)) := by
  induction bytes generalizing i with
  | nil => exact absurd hi (Nat.not_lt_zero i)
  | cons b bytes ih =>
    rw [bitsOf_cons]
    rcases Nat.lt_or_ge i 8 with hbyte | hbyte
    · rw [List.getElem?_append_left (by rwa [length_byteBits]), getElem?_byteBits hbyte,
        Nat.div_eq_of_lt hbyte, Nat.mod_eq_of_lt hbyte]
      rfl
    · obtain ⟨k, rfl⟩ := Nat.exists_eq_add_of_le hbyte
      rw [List.length_cons] at hi
      have hdiv : (8 + k) / 8 = k / 8 + 1 := by omega
      have hmod : (8 + k) % 8 = k % 8 := by omega
      rw [List.getElem?_append_right (by simp), length_byteBits, Nat.add_sub_cancel_left,
        ih (by omega), hdiv, hmod, List.getD_cons_succ]

/-- The bits say which bytes they were. -/
theorem bitsOf_injective {bytes bytes' : List UInt8} (h : bitsOf bytes = bitsOf bytes') :
    bytes = bytes' := by
  have hlength : bytes.length = bytes'.length := by
    have hbits := congrArg List.length h
    rw [length_bitsOf, length_bitsOf] at hbits
    omega
  refine List.ext_getElem hlength fun i hi hi' =>
    UInt8.eq_of_toBitVec_eq (BitVec.eq_of_getLsbD_eq fun k hk => ?_)
  have hbit := congrArg (fun bits => bits[8 * i + k]?) h
  have hdiv : (8 * i + k) / 8 = i := by omega
  have hmod : (8 * i + k) % 8 = k := by omega
  simp only [getElem?_bitsOf (show 8 * i + k < 8 * bytes.length by omega),
    getElem?_bitsOf (show 8 * i + k < 8 * bytes'.length by omega), hdiv, hmod, Option.some.injEq,
    List.getD_eq_getElem _ _ hi, List.getD_eq_getElem _ _ hi'] at hbit
  exact hbit

theorem wordOf_byteBits (b : UInt8) : wordOf 32 (byteBits b) = b.toBitVec.setWidth 32 := by
  refine BitVec.eq_of_getLsbD_eq fun i hi => ?_
  rw [getLsbD_wordOf hi, BitVec.getLsbD_setWidth, List.getD_eq_getElem?_getD]
  rcases Nat.lt_or_ge i 8 with hbyte | hbyte
  · simp [getElem?_byteBits hbyte, hi]
  · simp [hbyte]

/-- **Step lemma**: the inner loop feeds the register one byte. -/
theorem crcBits_byte (crc : BitVec 32) (b : UInt8) :
    crcBits 8 (crc ^^^ b.toBitVec.setWidth 32) = feed crcTaps crc (byteBits b) := by
  have hshort : (byteBits b).length ≤ 32 := by simp
  rw [feed_eq_iterate crcTaps crc hshort, length_byteBits, wordOf_byteBits, crcBits_eq]

/-- **Run lemma**: the outer loop feeds the register the bits of the view. -/
theorem crcBytes_eq (bytes : ByteView) (i : Nat) (crc : BitVec 32) :
    crcBytes bytes i crc = feed crcTaps crc (bitsOf (bytes.toVector.drop i)) := by
  fun_induction crcBytes bytes i crc with
  | case1 i crc hi ih =>
    have hlt : i < bytes.toVector.length := by rwa [ByteView.length_toVector]
    rw [ih, crcBits_byte, List.drop_eq_getElem_cons hlt, bitsOf_cons, feed_append,
      ByteView.data_eq_getD hi, List.getD_eq_getElem _ _ hlt]
  | case2 i crc hi =>
    rw [List.drop_of_length_le (by rw [ByteView.length_toVector]; omega)]
    rfl

theorem crc32_eq (bytes : ByteView) :
    crc32 bytes = ~~~feed crcTaps 0xffffffff#32 (bitsOf bytes.toVector) := by
  rw [crc32, crcBytes_eq, List.drop_zero]

/-! ## Errors -/

/-- Bit `i` of a view, the low bit of the first byte first. -/
def ByteView.bit (v : ByteView) (i : Nat) : Bool := (v.data (i / 8)).toBitVec.getLsbD (i % 8)

theorem getElem?_bitsOf_toVector (v : ByteView) (i : Nat) :
    (bitsOf v.toVector)[i]? = if i < 8 * v.size then some (v.bit i) else none := by
  split
  · rename_i hi
    have hlt : i / 8 < v.size := by omega
    rw [getElem?_bitsOf (by rwa [ByteView.length_toVector]), ByteView.bit,
      ByteView.data_eq_getD hlt]
  · rw [List.getElem?_eq_none (by rw [length_bitsOf, ByteView.length_toVector]; omega)]

/-- **Bursts are seen**: two messages of one length whose bits part only within 32
consecutive places have one checksum only when they are one message. -/
theorem crc32_eq_iff {v w : ByteView} (hsize : v.size = w.size) (start : Nat)
    (hburst : ∀ i < 8 * v.size, v.bit i ≠ w.bit i → start ≤ i ∧ i < start + 32) :
    crc32 v = crc32 w ↔ v.SameBytes w := by
  have hlength : (bitsOf v.toVector).length = (bitsOf w.toVector).length := by
    rw [length_bitsOf, length_bitsOf, ByteView.length_toVector, ByteView.length_toVector, hsize]
  have hbits : ∀ i, (bitsOf v.toVector)[i]? ≠ (bitsOf w.toVector)[i]? → start ≤ i ∧
      i < start + 32 := by
    intro i hne
    rw [getElem?_bitsOf_toVector, getElem?_bitsOf_toVector, ← hsize] at hne
    by_cases hi : i < 8 * v.size
    · rw [if_pos hi, if_pos hi] at hne
      exact hburst i hi fun heq => hne (congrArg some heq)
    · rw [if_neg hi, if_neg hi] at hne
      exact absurd rfl hne
  calc crc32 v = crc32 w
      ↔ feed crcTaps 0xffffffff#32 (bitsOf v.toVector) = feed crcTaps 0xffffffff#32
        (bitsOf w.toVector) := by
        rw [crc32_eq, crc32_eq, BitVec.not_inj]
    _ ↔ bitsOf v.toVector = bitsOf w.toVector :=
      feed_inj_of_burst crcTaps_last _ hlength start hbits
    _ ↔ v.SameBytes w := ⟨bitsOf_injective, congrArg bitsOf⟩

/-- Two bytes next to each other are damaged. -/
theorem crc32_eq_iff_bytes : crc32 (.ofVector [1, 2, 3]) ≠ crc32 (.ofVector [1, 4, 5]) :=
  (crc32_eq_iff (v := .ofVector [1, 2, 3]) (w := .ofVector [1, 4, 5]) rfl 8 (by decide)).not.mpr
    (by simp [ByteView.SameBytes])

/-! ## Trailers -/

theorem bitsOf_append (bytes bytes' : List UInt8) :
    bitsOf (bytes ++ bytes') = bitsOf bytes ++ bitsOf bytes' :=
  List.flatMap_append

theorem littleEndian_succ (width n : Nat) :
    littleEndian (width + 1) n = UInt8.ofNat (n % 256) :: littleEndian width (n / 256) := by
  rw [littleEndian, bigEndian, List.reverse_append]
  rfl

theorem getElem?_bitsOf_littleEndian {width i : Nat} (n : Nat) (hi : i < 8 * width) :
    (bitsOf (littleEndian width n))[i]? = some (n.testBit i) := by
  induction width generalizing i n with
  | zero => exact absurd hi (Nat.not_lt_zero i)
  | succ width ih =>
    rw [littleEndian_succ, bitsOf_cons]
    rcases Nat.lt_or_ge i 8 with hbyte | hbyte
    · rw [List.getElem?_append_left (by rwa [length_byteBits]), getElem?_byteBits hbyte]
      have hmod : n % 256 = n % 2 ^ 8 := rfl
      simp [BitVec.getLsbD, hmod, Nat.testBit_mod_two_pow, hbyte]
    · obtain ⟨k, rfl⟩ := Nat.exists_eq_add_of_le hbyte
      rw [List.getElem?_append_right (by simp), length_byteBits, Nat.add_sub_cancel_left,
        ih _ (by omega), Nat.add_comm 8 k, Nat.testBit_add]

theorem wordOf_littleEndian (crc : BitVec 32) :
    wordOf 32 (bitsOf (littleEndian 4 crc.toNat)) = crc := by
  refine BitVec.eq_of_getLsbD_eq fun i hi => ?_
  rw [getLsbD_wordOf hi, List.getD_eq_getElem?_getD, getElem?_bitsOf_littleEndian crc.toNat hi]
  rfl

/-- What every message that carries its checksum behind it sums to. -/
def crcResidue : BitVec 32 := 0x2144df1c#32

theorem shift_ones : ~~~(shiftStep crcTaps)^[32] (BitVec.allOnes 32) = crcResidue := by decide

/-- **The trailer**: four bytes behind a message give the residue exactly when they
are the checksum of the message, low byte first. -/
theorem crc32_append_eq_residue_iff (message : List UInt8) {trailer : List UInt8}
    (hlength : trailer.length = 4) :
    crc32 (.ofVector (message ++ trailer)) = crcResidue ↔
      trailer = littleEndian 4 (crc32 (.ofVector message)).toNat := by
  have hshort : (bitsOf trailer).length = 32 := by rw [length_bitsOf, hlength]
  set crc := feed crcTaps 0xffffffff#32 (bitsOf message) with hcrc
  have hmessage : crc32 (.ofVector message) = ~~~crc := by rw [crc32_eq, ByteView.toVector_ofVector]
  have hwhole : crc32 (.ofVector (message ++ trailer)) =
      ~~~(shiftStep crcTaps)^[32] (crc ^^^ wordOf 32 (bitsOf trailer)) := by
    rw [crc32_eq, ByteView.toVector_ofVector, bitsOf_append, feed_append,
      feed_eq_iterate crcTaps _ hshort.le, hshort]
  calc crc32 (.ofVector (message ++ trailer)) = crcResidue
      ↔ crc ^^^ wordOf 32 (bitsOf trailer) = BitVec.allOnes 32 := by
        rw [hwhole, ← shift_ones, BitVec.not_inj]
        exact ((shiftStep_injective crcTaps_last).iterate 32).eq_iff
    _ ↔ wordOf 32 (bitsOf trailer) = ~~~crc := by
        rw [← BitVec.xor_right_inj crc, ← BitVec.xor_assoc, BitVec.xor_self, BitVec.zero_xor,
          BitVec.xor_allOnes]
    _ ↔ wordOf 32 (bitsOf trailer) = wordOf 32 (bitsOf (littleEndian 4 (~~~crc).toNat)) := by
        rw [wordOf_littleEndian]
    _ ↔ trailer = littleEndian 4 (crc32 (.ofVector message)).toNat := by
        rw [hmessage]
        refine ⟨fun h => bitsOf_injective (wordOf_injective ?_ hshort.le h), fun h => h ▸ rfl⟩
        rw [hshort, length_bitsOf, length_littleEndian]

/-- The digits from 1 to 9, with their checksum. -/
theorem crc32_append_eq_residue_iff_digits :
    crc32 (.ofVector ([0x31, 0x32, 0x33, 0x34, 0x35, 0x36, 0x37, 0x38, 0x39] ++
      [0x26, 0x39, 0xf4, 0xcb])) =
      crcResidue :=
  (crc32_append_eq_residue_iff _ rfl).mpr (by rw [crc32_eq]; decide +kernel)

end PacketGuard.Core
