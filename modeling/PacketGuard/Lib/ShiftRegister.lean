import Mathlib

/-! Shift registers with feedback.  The low bit of a register leaves at every
step and, when it is set, flips the taps.  A step is linear over exclusive or;
with the highest tap set it loses nothing, and then no two streams that part
only inside one register's width can end alike. -/
namespace PacketGuard.Lib

variable {n : Nat}

/-- The register of `n` bits that holds `b` in its lowest place. -/
def bitWord (n : Nat) (b : Bool) : BitVec n := (BitVec.ofBool b).setWidth n

/-- The register whose lowest places hold the bits, the first bit lowest. -/
def wordOf (n : Nat) : List Bool → BitVec n
  | [] => 0#n
  | b :: bits => bitWord n b ^^^ (wordOf n bits <<< 1)

def shiftStep (taps r : BitVec n) : BitVec n := (r >>> 1) ^^^ (if r.getLsbD 0 then taps else 0#n)

/-- The register after a stream of bits, each put on the lowest place before a step. -/
def feed (taps r : BitVec n) (bits : List Bool) : BitVec n :=
  bits.foldl (fun r b => shiftStep taps (r ^^^ bitWord n b)) r

theorem getLsbD_bitWord {b : Bool} {i : Nat} (hi : i < n) :
    (bitWord n b).getLsbD i = (decide (i = 0) && b) := by
  rw [bitWord, BitVec.getLsbD_setWidth, BitVec.getLsbD_ofBool]
  simp [hi]

theorem getLsbD_wordOf {bits : List Bool} {i : Nat} (hi : i < n) :
    (wordOf n bits).getLsbD i = bits.getD i false := by
  induction bits generalizing i with
  | nil => simp [wordOf]
  | cons b bits ih =>
    rw [wordOf, BitVec.getLsbD_xor, getLsbD_bitWord hi, BitVec.getLsbD_shiftLeft]
    cases i with
    | zero => simp
    | succ i =>
      rw [Nat.add_sub_cancel, ih (by omega)]
      simp [hi]

/-- A register tells short streams of one length apart. -/
theorem wordOf_injective {x y : List Bool} (hlength : x.length = y.length) (hle : x.length ≤ n)
    (h : wordOf n x = wordOf n y) : x = y := by
  refine List.ext_getElem hlength fun i hx hy => ?_
  have hbit : (wordOf n x).getLsbD i = (wordOf n y).getLsbD i := by rw [h]
  rw [getLsbD_wordOf (by omega), getLsbD_wordOf (by omega)] at hbit
  rwa [List.getD_eq_getElem _ _ hx, List.getD_eq_getElem _ _ hy] at hbit

/-! ## One step -/

theorem shiftStep_xor (taps r s : BitVec n) :
    shiftStep taps (r ^^^ s) = shiftStep taps r ^^^ shiftStep taps s := by
  have hfeedback : (if (r ^^^ s).getLsbD 0 then taps else 0#n) =
      (if r.getLsbD 0 then taps else 0#n) ^^^ (if s.getLsbD 0 then taps else 0#n) := by
    rw [BitVec.getLsbD_xor]
    cases r.getLsbD 0 <;> cases s.getLsbD 0 <;> simp
  rw [shiftStep, shiftStep, shiftStep, hfeedback, BitVec.ushiftRight_xor_distrib]
  ac_rfl

/-- Nothing leaves a register whose low bit is clear. -/
theorem shiftStep_shiftLeft (taps : BitVec n) {r : BitVec n} (h : r.getLsbD (n - 1) = false) :
    shiftStep taps (r <<< 1) = r := by
  refine BitVec.eq_of_getLsbD_eq fun i hi => ?_
  have hlow : (r <<< 1).getLsbD 0 = false := by simp
  rw [shiftStep, hlow, if_neg Bool.false_ne_true, BitVec.xor_zero, BitVec.getLsbD_ushiftRight,
    BitVec.getLsbD_shiftLeft, Nat.add_comm 1 i, Nat.add_sub_cancel]
  by_cases hlast : i = n - 1
  · rw [hlast, h, Bool.and_false]
  · have hplace : i + 1 < n := by omega
    simp [hplace]

theorem shiftStep_injective {taps : BitVec n} (htaps : taps.getLsbD (n - 1) = true) :
    Function.Injective (shiftStep taps) := by
  intro r s hrs
  have hzero : shiftStep taps (r ^^^ s) = 0#n := by
    rw [shiftStep_xor, hrs, BitVec.xor_self]
  have hdiff : r ^^^ s = 0#n := by
    generalize r ^^^ s = d at hzero
    rw [shiftStep, BitVec.xor_eq_zero_iff] at hzero
    -- the place that the shift leaves empty shows whether the taps were flipped
    have hlow : d.getLsbD 0 = false := by
      by_contra hset
      rw [if_pos (Bool.eq_true_of_not_eq_false hset)] at hzero
      have hlast : (d >>> 1).getLsbD (n - 1) = false := by
        rw [BitVec.getLsbD_ushiftRight]
        exact BitVec.getLsbD_of_ge _ _ (by omega)
      rw [hzero, htaps] at hlast
      cases hlast
    rw [hlow, if_neg Bool.false_ne_true] at hzero
    refine BitVec.eq_of_getLsbD_eq fun i hi => ?_
    rw [BitVec.getLsbD_zero]
    cases i with
    | zero => exact hlow
    | succ i =>
      have hbit := congrArg (fun w => w.getLsbD i) hzero
      rwa [BitVec.getLsbD_ushiftRight, BitVec.getLsbD_zero, Nat.add_comm] at hbit
  exact BitVec.xor_eq_zero_iff.mp hdiff

/-! ## Streams -/

section Streams
variable (taps : BitVec n)

theorem feed_cons (r : BitVec n) (b : Bool) (bits : List Bool) :
    feed taps r (b :: bits) = feed taps (shiftStep taps (r ^^^ bitWord n b)) bits := rfl

theorem feed_append (r : BitVec n) (x y : List Bool) :
    feed taps r (x ++ y) = feed taps (feed taps r x) y :=
  List.foldl_append

/-- **A short stream** may be put on the register at once. -/
theorem feed_eq_iterate (r : BitVec n) {bits : List Bool} (h : bits.length ≤ n) :
    feed taps r bits = (shiftStep taps)^[bits.length] (r ^^^ wordOf n bits) := by
  induction bits generalizing r with
  | nil => simp [feed, wordOf]
  | cons b bits ih =>
    rw [List.length_cons] at h
    have hlast : (wordOf n bits).getLsbD (n - 1) = false := by
      rw [getLsbD_wordOf (by omega), List.getD_eq_default _ _ (by omega)]
    rw [feed_cons, ih _ (by omega), wordOf, ← BitVec.xor_assoc, List.length_cons,
      Function.iterate_succ_apply,
      shiftStep_xor taps (r ^^^ bitWord n b), shiftStep_shiftLeft taps hlast]

variable {taps} (htaps : taps.getLsbD (n - 1) = true)
include htaps

/-- Two registers that are fed one stream stay apart. -/
theorem feed_register_inj {r s : BitVec n} {bits : List Bool} :
    feed taps r bits = feed taps s bits ↔ r = s := by
  refine ⟨fun h => ?_, fun h => h ▸ rfl⟩
  induction bits generalizing r s with
  | nil => exact h
  | cons b bits ih => exact (BitVec.xor_left_inj _).mp (shiftStep_injective htaps (ih h))

/-- Two short streams take one register apart. -/
theorem feed_stream_inj (r : BitVec n) {x y : List Bool} (hlength : x.length = y.length)
    (hle : x.length ≤ n) :
    feed taps r x = feed taps r y ↔ x = y := by
  refine ⟨fun h => ?_, fun h => h ▸ rfl⟩
  rw [feed_eq_iterate taps r hle, feed_eq_iterate taps r (hlength ▸ hle), ← hlength] at h
  have hword := (shiftStep_injective htaps).iterate _ h
  exact wordOf_injective hlength hle ((BitVec.xor_right_inj _).mp hword)

/-- **Bursts**: streams that part only within the register's width end alike only
when they are one stream. -/
theorem feed_inj_of_burst (r : BitVec n) {x y : List Bool} (hlength : x.length = y.length)
    (start : Nat)
    (hburst : ∀ i, x[i]? ≠ y[i]? → start ≤ i ∧ i < start + n) :
    feed taps r x = feed taps r y ↔ x = y := by
  have hsame : ∀ i, i < start ∨ start + n ≤ i → x[i]? = y[i]? := by
    intro i hi
    by_contra hne
    have := hburst i hne
    omega
  have hfront : x.take start = y.take start := by
    refine List.ext_getElem? fun i => ?_
    rw [List.getElem?_take, List.getElem?_take]
    split
    · exact hsame i (.inl ‹_›)
    · rfl
  have hback : (x.drop start).drop n = (y.drop start).drop n := by
    refine List.ext_getElem? fun i => ?_
    rw [List.drop_drop, List.drop_drop, List.getElem?_drop, List.getElem?_drop]
    exact hsame _ (.inr (by omega))
  have hsplit : ∀ z : List Bool, z = z.take start ++
      ((z.drop start).take n ++ (z.drop start).drop n) := by
    intro z
    rw [List.take_append_drop, List.take_append_drop]
  refine ⟨fun h => ?_, fun h => h ▸ rfl⟩
  rw [hsplit x, hsplit y, ← hfront, ← hback, feed_append, feed_append, feed_append, feed_append,
    feed_register_inj htaps, feed_stream_inj htaps _ (by simp [hlength]) (List.length_take_le _ _)]
      at h
  rw [hsplit x, hsplit y, ← hfront, ← hback, h]

end Streams

end PacketGuard.Lib
