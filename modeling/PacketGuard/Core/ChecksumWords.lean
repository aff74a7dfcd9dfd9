import PacketGuard.Core.Checksum
import PacketGuard.Lib.EndAround

/-! # The checksum as a number modulo 65535

The words of a view are summed up exactly as long as their sum fits into the
accumulator, and the carries are folded to the representative of the sum.  So
one word, the complement of the checksum of the others, makes the checksum zero.
-/
namespace PacketGuard.Core
open PacketGuard.Lib

/-- The 16-bit word at position `k`. -/
def ByteView.word (v : ByteView) (k : Nat) : Nat := readBe16 (v.ptr (2 * k))

/-- The sum of the first `count` words, without a bound. -/
def wordSum (v : ByteView) (count : Nat) : Nat := ∑ k ∈ Finset.range count, v.word k

/-- The bytes with word `k` set to `w`. -/
def setWord (bytes : List UInt8) (k w : Nat) : List UInt8 :=
  (bytes.set (2 * k) (UInt8.ofNat (w / 256))).set (2 * k + 1) (UInt8.ofNat (w % 256))

@[simp] theorem length_setWord (bytes : List UInt8) (k w : Nat) :
    (setWord bytes k w).length = bytes.length := by
  simp [setWord]

/-! ## The accumulator -/

theorem ByteView.word_lt (v : ByteView) (k : Nat) : v.word k < 2 ^ 16 := by
  have hhigh := (v.ptr (2 * k) 0).toNat_lt
  have hlow := (v.ptr (2 * k) 1).toNat_lt
  rw [ByteView.word, readBe16_eq]
  omega

theorem wordSum_succ (v : ByteView) (count : Nat) :
    wordSum v (count + 1) = wordSum v count + v.word count :=
  Finset.sum_range_succ v.word count

theorem wordSum_le (v : ByteView) (count : Nat) : wordSum v count ≤ count * 65535 := by
  induction count with
  | zero => exact Nat.le_refl 0
  | succ count ih =>
    have hword := v.word_lt count
    rw [wordSum_succ]
    omega

/-- **The accumulator** has the sum of the words it has gone through. -/
theorem sumWords_eq_wordSum {v : ByteView} (hlength : v.size ≤ 65534) {count : Nat}
    (hcount : count ≤ v.size / 2) :
    sumWords v 0 0 = sumWords v (2 * count) (wordSum v count) := by
  induction count with
  | zero => rfl
  | succ count ih =>
    have hsum := wordSum_le v (count + 1)
    rw [wordSum_succ] at hsum
    rw [ih (by omega), sumWords, if_pos (by omega), wordSum_succ, ByteView.word, Nat.mod_eq_of_lt]
    · rw [Nat.mul_add, Nat.mul_one]
    · rw [ByteView.word] at hsum
      omega

theorem sumWords_zero {v : ByteView} (heven : v.size % 2 = 0) (hlength : v.size ≤ 65534) :
    sumWords v 0 0 = wordSum v (v.size / 2) := by
  rw [sumWords_eq_wordSum hlength (Nat.le_refl _), sumWords, if_neg (by omega)]

/-! ## The carries -/

theorem foldCarries_eq (sum : Nat) : foldCarries sum = endAround 65535 sum := by
  fun_induction foldCarries sum with
  | case1 sum hsmall =>
    rw [Nat.shiftRight_eq_div_pow] at hsmall
    exact (endAround_of_le (by omega)).symm
  | case2 sum hlarge ih =>
    have hlow : sum &&& 0xffff = sum % (65535 + 1) := Nat.and_two_pow_sub_one_eq_mod sum 16
    rw [ih, hlow, Nat.shiftRight_eq_div_pow]
    exact endAround_carry (by decide) sum

/-- **The checksum** is the complement of the sum of the words. -/
theorem internetChecksum_eq {v : ByteView} (heven : v.size % 2 = 0) (hlength : v.size ≤ 65534) :
    internetChecksum v = 65535 - endAround 65535 (wordSum v (v.size / 2)) := by
  have hle := endAround_le (show 0 < 65535 by decide) (wordSum v (v.size / 2))
  unfold internetChecksum
  simp only
  rw [if_neg (by omega), sumWords_zero heven hlength, foldCarries_eq]
  omega

/-! ## Setting one word -/

theorem word_setWord {bytes : List UInt8} {k w : Nat} (hk : 2 * k + 1 < bytes.length)
    (hw : w < 2 ^ 16) :
    (ByteView.ofVector (setWord bytes k w)).word =
      Function.update (ByteView.ofVector bytes).word k w := by
  funext j
  rw [ByteView.word, readBe16_eq]
  by_cases hj : j = k
  · subst hj
    have hhigh : (ByteView.ofVector (setWord bytes j w)).ptr (2 * j) 0 = UInt8.ofNat (w / 256) := by
      simp [ByteView.ofVector, ByteView.ptr, ByteView.data, setWord, List.getD_eq_getElem?_getD,
        Nat.lt_of_succ_lt hk]
    have hlow : (ByteView.ofVector (setWord bytes j w)).ptr (2 * j) 1 = UInt8.ofNat (w % 256) := by
      simp [ByteView.ofVector, ByteView.ptr, ByteView.data, setWord, List.getD_eq_getElem?_getD, hk]
    rw [Function.update_self, hhigh, hlow, UInt8.toNat_ofNat', UInt8.toNat_ofNat']
    omega
  · have hsame : ∀ i < 2, (ByteView.ofVector (setWord bytes k w)).ptr (2 * j) i =
        (ByteView.ofVector bytes).ptr (2 * j) i := by
      intro i hi
      have hne : 2 * k ≠ 2 * j + i := by omega
      have hne' : 2 * k + 1 ≠ 2 * j + i := by omega
      simp [ByteView.ofVector, ByteView.ptr, ByteView.data, setWord, List.getD_eq_getElem?_getD,
        List.getElem?_set_ne hne, List.getElem?_set_ne hne']
    rw [Function.update_of_ne hj, ByteView.word, readBe16_eq, hsame 0 (by decide),
      hsame 1 (by decide)]

/-- The sum, as the rest of it and the word that is set. -/
theorem wordSum_setWord {bytes : List UInt8} {k w : Nat} (hk : 2 * k + 1 < bytes.length)
    (hw : w < 2 ^ 16) :
    wordSum (ByteView.ofVector (setWord bytes k w)) (bytes.length / 2) =
      wordSum (ByteView.ofVector (setWord bytes k 0)) (bytes.length / 2) + w := by
  have hmem : k ∈ Finset.range (bytes.length / 2) := Finset.mem_range.mpr (by omega)
  rw [wordSum, wordSum, word_setWord hk hw, word_setWord hk (by decide),
    Finset.sum_update_of_mem hmem, Finset.sum_update_of_mem hmem, Nat.zero_add, Nat.add_comm]

/-- **One word** makes the checksum zero: the checksum of the others, or the other zero. -/
theorem internetChecksum_setWord_eq_zero_iff {bytes : List UInt8} (heven : bytes.length % 2 = 0)
    (hlength : bytes.length ≤ 65534) {k w : Nat} (hk : 2 * k + 1 < bytes.length) (hw : w < 2 ^ 16) :
    internetChecksum (ByteView.ofVector (setWord bytes k w)) = 0 ↔
      w = internetChecksum (ByteView.ofVector (setWord bytes k 0)) ∨
        internetChecksum (ByteView.ofVector (setWord bytes k 0)) = 0 ∧ w = 0xffff := by
  have hsum : ∀ u < 2 ^ 16, internetChecksum (ByteView.ofVector (setWord bytes k u)) =
      65535 - endAround 65535
        (wordSum (ByteView.ofVector (setWord bytes k 0)) (bytes.length / 2) + u) := by
    intro u hu
    rw [internetChecksum_eq (by simpa using heven) (by simpa using hlength), ByteView.size_ofVector,
      length_setWord, wordSum_setWord hk hu]
  rw [hsum w hw, hsum 0 (by decide), Nat.add_zero]
  generalize wordSum (ByteView.ofVector (setWord bytes k 0)) (bytes.length / 2) = rest
  rw [← endAround_add_eq_top_iff (show 0 < 65535 by decide) rest (show w ≤ 65535 by omega)]
  have hle := endAround_le (show 0 < 65535 by decide) (rest + w)
  omega

/-- Setting a word to what it is. -/
theorem setWord_word {bytes : List UInt8} {k : Nat} (hk : 2 * k + 1 < bytes.length) :
    setWord bytes k ((ByteView.ofVector bytes).word k) = bytes := by
  have hhigh : (ByteView.ofVector bytes).ptr (2 * k) 0 = bytes[2 * k] := by
    simp [ByteView.ofVector, ByteView.ptr, ByteView.data, List.getD_eq_getElem?_getD,
      Nat.lt_of_succ_lt hk]
  have hlow : (ByteView.ofVector bytes).ptr (2 * k) 1 = bytes[2 * k + 1] := by
    simp [ByteView.ofVector, ByteView.ptr, ByteView.data, List.getD_eq_getElem?_getD, hk]
  have hlt := bytes[2 * k + 1].toNat_lt
  have hdiv : (bytes[2 * k].toNat * 256 + bytes[2 * k + 1].toNat) / 256 = bytes[2 * k].toNat := by
    omega
  have hmod : (bytes[2 * k].toNat * 256 + bytes[2 * k + 1].toNat) % 256 =
      bytes[2 * k + 1].toNat := by
    omega
  rw [setWord, ByteView.word, readBe16_eq, hhigh, hlow, hdiv, hmod, UInt8.ofNat_toNat,
    UInt8.ofNat_toNat, List.set_getElem_self, List.set_getElem_self]

/-- **A checksum of zero** does not stay zero when one word changes, unless from one
zero to the other. -/
theorem internetChecksum_setWord_ne_zero {bytes : List UInt8} (heven : bytes.length % 2 = 0)
    (hlength : bytes.length ≤ 65534) {k w : Nat} (hk : 2 * k + 1 < bytes.length) (hw : w < 2 ^ 16)
    (hzero : internetChecksum (ByteView.ofVector bytes) = 0)
    (hne : w ≠ (ByteView.ofVector bytes).word k)
    (hup : ¬ ((ByteView.ofVector bytes).word k = 0 ∧ w = 0xffff))
    (hdown : ¬ ((ByteView.ofVector bytes).word k = 0xffff ∧ w = 0)) :
    internetChecksum (ByteView.ofVector (setWord bytes k w)) ≠ 0 := by
  intro hzero'
  rw [← setWord_word hk, internetChecksum_setWord_eq_zero_iff heven hlength hk
    (ByteView.word_lt _ k)] at hzero
  rw [internetChecksum_setWord_eq_zero_iff heven hlength hk hw] at hzero'
  omega

end PacketGuard.Core
