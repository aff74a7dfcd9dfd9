import Mathlib

/-! Fixed-width unsigned numbers as bytes, most or least significant byte first. -/
namespace PacketGuard.Lib

/-- The `width` bytes of `n`, most significant first. -/
def bigEndian : Nat → Nat → List UInt8
  | 0, _ => []
  | width + 1, n => bigEndian width (n / 256) ++ [UInt8.ofNat (n % 256)]

/-- The `width` bytes of `n`, least significant first. -/
def littleEndian (width n : Nat) : List UInt8 := (bigEndian width n).reverse

/-- The number whose bytes, most significant first, are `bytes`. -/
def bigEndianValue (bytes : List UInt8) : Nat := bytes.foldl (fun v b => v * 256 + b.toNat) 0

@[simp] theorem length_bigEndian (width n : Nat) : (bigEndian width n).length = width := by
  induction width generalizing n with
  | zero => rfl
  | succ width ih => simp [bigEndian, ih]

@[simp] theorem length_littleEndian (width n : Nat) : (littleEndian width n).length = width := by
  simp [littleEndian]

theorem bigEndianValue_concat (bytes : List UInt8) (b : UInt8) :
    bigEndianValue (bytes ++ [b]) = bigEndianValue bytes * 256 + b.toNat := by
  simp [bigEndianValue]

/-- The bytes of a number that fits denote the number. -/
theorem bigEndianValue_bigEndian {width n : Nat} (h : n < 256 ^ width) :
    bigEndianValue (bigEndian width n) = n := by
  induction width generalizing n with
  | zero =>
    rw [Nat.pow_zero] at h
    simp [bigEndian, bigEndianValue]
    omega
  | succ width ih =>
    have hdiv : n / 256 < 256 ^ width := by
      rw [Nat.pow_succ] at h
      omega
    have hbyte : (UInt8.ofNat (n % 256)).toNat = n % 256 := by
      rw [UInt8.toNat_ofNat']
      omega
    rw [bigEndian, bigEndianValue_concat, ih hdiv, hbyte]
    omega

theorem bigEndianValue_lt (bytes : List UInt8) : bigEndianValue bytes < 256 ^ bytes.length := by
  induction bytes using List.reverseRecOn with
  | nil => exact Nat.one_pos
  | append_singleton bytes b ih =>
    have hb := b.toNat_lt
    rw [bigEndianValue_concat, List.length_append, List.length_singleton, Nat.pow_succ]
    omega

/-- The number that bytes denote has them as its bytes. -/
theorem bigEndian_bigEndianValue (bytes : List UInt8) :
    bigEndian bytes.length (bigEndianValue bytes) = bytes := by
  induction bytes using List.reverseRecOn with
  | nil => rfl
  | append_singleton bytes b ih =>
    have hb := b.toNat_lt
    have hdiv : (bigEndianValue bytes * 256 + b.toNat) / 256 = bigEndianValue bytes := by omega
    have hmod : (bigEndianValue bytes * 256 + b.toNat) % 256 = b.toNat := by omega
    rw [List.length_append, List.length_singleton, bigEndianValue_concat, bigEndian, hdiv, hmod, ih,
      UInt8.ofNat_toNat]

end PacketGuard.Lib
