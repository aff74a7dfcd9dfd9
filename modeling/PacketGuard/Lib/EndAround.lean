import Mathlib.Data.Nat.ModEq
import Mathlib.Tactic.Ring

/-! # Sums with an end-around carry

A sum whose carries are added back at its low end stands for a number modulo
`m = 2 ^ w - 1`.  Zero has two representatives there, `0` and `m`; the first is
left only when the sum is zero itself.
-/
namespace PacketGuard.Lib

/-- The representative to which the carries of a sum are folded. -/
def endAround (m sum : Nat) : Nat := if sum = 0 then 0 else (sum - 1) % m + 1

variable {m : Nat}

theorem endAround_of_le {sum : Nat} (h : sum ≤ m) : endAround m sum = sum := by
  unfold endAround
  split
  · exact Eq.symm ‹_›
  · rw [Nat.mod_eq_of_lt (by omega)]
    omega

/-- **One fold** of the carries keeps the representative. -/
theorem endAround_carry (hm : 0 < m) (sum : Nat) :
    endAround m (sum % (m + 1) + sum / (m + 1)) = endAround m sum := by
  have hsum := Nat.mod_add_div sum (m + 1)
  generalize sum % (m + 1) = low at hsum ⊢
  generalize sum / (m + 1) = high at hsum ⊢
  subst hsum
  unfold endAround
  by_cases hzero : low + high = 0
  · obtain ⟨rfl, rfl⟩ := Nat.add_eq_zero_iff.mp hzero
    rfl
  · have hne : low + (m + 1) * high ≠ 0 := by
      intro h
      obtain ⟨hlow, hhigh⟩ := Nat.add_eq_zero_iff.mp h
      rcases Nat.mul_eq_zero.mp hhigh with h | h <;> omega
    have hsplit : low + (m + 1) * high - 1 = (low + high - 1) + m * high := by
      have hmul : (m + 1) * high = m * high + high := by ring
      omega
    rw [if_neg hzero, if_neg hne, hsplit, Nat.add_mul_mod_self_left]

theorem endAround_eq_top_iff (hm : 0 < m) (sum : Nat) :
    endAround m sum = m ↔ sum ≠ 0 ∧ m ∣ sum := by
  unfold endAround
  cases sum with
  | zero =>
    rw [if_pos rfl]
    exact ⟨fun h => absurd h (Nat.ne_of_lt hm), fun h => absurd rfl h.1⟩
  | succ pred =>
    have hlt := Nat.mod_lt pred hm
    have hsplit : pred + 1 = m * (pred / m) + (pred % m + 1) := by
      rw [← Nat.add_assoc, Nat.div_add_mod]
    have hdvd : m ∣ pred + 1 ↔ m ∣ pred % m + 1 := by
      conv_lhs => rw [hsplit]
      exact Nat.dvd_add_right (Nat.dvd_mul_right m _)
    rw [if_neg (Nat.succ_ne_zero pred), Nat.add_sub_cancel, hdvd]
    constructor
    · intro htop
      exact ⟨Nat.succ_ne_zero pred, Dvd.intro 1 (by rw [Nat.mul_one, htop])⟩
    · rintro ⟨-, hdvd⟩
      exact Nat.le_antisymm hlt (Nat.le_of_dvd (Nat.succ_pos _) hdvd)

theorem endAround_le (hm : 0 < m) (sum : Nat) : endAround m sum ≤ m := by
  unfold endAround
  split
  · exact Nat.zero_le m
  · exact Nat.mod_lt _ hm

theorem endAround_eq_zero_iff (sum : Nat) : endAround m sum = 0 ↔ sum = 0 := by
  unfold endAround
  split <;> simp [*]

theorem endAround_modEq (sum : Nat) : endAround m sum ≡ sum [MOD m] := by
  unfold endAround
  cases sum with
  | zero => exact Nat.ModEq.refl 0
  | succ pred =>
    rw [if_neg (Nat.succ_ne_zero pred), Nat.add_sub_cancel]
    exact (Nat.mod_modEq pred m).add_right 1

/-- **The complement** of the rest of a sum fills the sum up to zero; where the complement is
zero, the other zero does so too. -/
theorem endAround_add_eq_top_iff (hm : 0 < m) (rest : Nat) {w : Nat} (hw : w ≤ m) :
    endAround m (rest + w) = m ↔ w = m - endAround m rest ∨ m - endAround m rest = 0 ∧ w = m := by
  have hle := endAround_le hm rest
  have hzero : rest + w ≠ 0 ↔ endAround m rest + w ≠ 0 := by
    rw [ne_eq, ne_eq, Nat.add_eq_zero_iff, Nat.add_eq_zero_iff, endAround_eq_zero_iff]
  have hdvd : m ∣ rest + w ↔ m ∣ endAround m rest + w :=
    ((endAround_modEq rest).symm.add_right w).dvd_iff (Nat.dvd_refl m)
  rw [endAround_eq_top_iff hm, hzero, hdvd]
  generalize endAround m rest = e at hle ⊢
  constructor
  · rintro ⟨hne, q, hq⟩
    -- the sum is `m` or twice `m`
    have hq1 : 1 ≤ q := Nat.one_le_iff_ne_zero.mpr fun h => hne (by rw [hq, h, Nat.mul_zero])
    have hq2 : q ≤ 2 := by
      by_contra hlarge
      have hmul : m * 3 ≤ m * q := Nat.mul_le_mul_left m (by omega)
      omega
    obtain rfl | rfl : q = 1 ∨ q = 2 := by omega
    · left
      omega
    · right
      omega
  · rintro (rfl | ⟨htop, rfl⟩)
    · rw [Nat.add_sub_cancel' hle]
      exact ⟨Nat.ne_of_gt hm, Nat.dvd_refl m⟩
    · have he : e = w := by omega
      rw [he]
      exact ⟨by omega, Dvd.intro 2 (by ring)⟩

end PacketGuard.Lib
