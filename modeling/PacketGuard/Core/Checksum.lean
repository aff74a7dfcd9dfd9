import PacketGuard.Core.ByteView

/-! The Internet checksum (`core/checksum.cpp`). -/
namespace PacketGuard.Core

/-- The first loop of `internet_checksum`: a 32-bit sum of 16-bit words. -/
def sumWords (bytes : ByteView) (i sum : Nat) : Nat :=
  if i + 1 < bytes.size then sumWords bytes (i + 2) ((sum + readBe16 (bytes.ptr i)) % 2 ^ 32)
  else sum
termination_by bytes.size - i

/-- `while (sum >> 16) sum = (sum & 0xffffu) + (sum >> 16)`. -/
def foldCarries (sum : Nat) : Nat :=
  if _h : sum >>> 16 = 0 then sum else foldCarries ((sum &&& 0xffff) + (sum >>> 16))
termination_by sum
decreasing_by
  have hmod : sum &&& 0xffff = sum % 2 ^ 16 := Nat.and_two_pow_sub_one_eq_mod sum 16
  rw [Nat.shiftRight_eq_div_pow] at *
  omega

def internetChecksum (bytes : ByteView) (initial : Nat := 0) : Nat :=
  let sum := sumWords bytes 0 initial
  let sum :=
    if bytes.size % 2 = 1 then
      (sum + ((bytes.data (bytes.size - 1)).toNat <<< 8) % 2 ^ 16) % 2 ^ 32
    else sum
  (2 ^ 32 - 1 - foldCarries sum) % 2 ^ 16

theorem sumWords_congr {v w : ByteView} (h : v.SameBytes w) (i sum : Nat) :
    sumWords v i sum = sumWords w i sum := by
  fun_induction sumWords v i sum with
  | case1 i sum hi ih =>
    rw [ih, sumWords.eq_def w i, if_pos (h.size_eq ▸ hi), h.extends.readBe16_eq (by omega)]
  | case2 i sum hi =>
    rw [sumWords, if_neg (h.size_eq ▸ hi)]

theorem internetChecksum_congr {v w : ByteView} (h : v.SameBytes w) (initial : Nat) :
    internetChecksum v initial = internetChecksum w initial := by
  simp only [internetChecksum, sumWords_congr h, h.size_eq]
  by_cases hodd : w.size % 2 = 1
  · rw [if_pos hodd, if_pos hodd, h.extends.data_eq (by have := h.size_eq; omega)]
  · rw [if_neg hodd, if_neg hodd]

end PacketGuard.Core
