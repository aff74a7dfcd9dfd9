import PacketGuard.Core.Result

/-! Time stamps (`core/time.cpp`). -/
namespace PacketGuard.Core

structure Timestamp where
  seconds : Int := 0
  nanos : Int := 0
  deriving DecidableEq, Repr

/-- The first loop of `normalize_timestamp`. -/
def carrySeconds (seconds fractionalNanos : Int) : Int × Int :=
  if 1000000000 ≤ fractionalNanos then carrySeconds (seconds + 1) (fractionalNanos - 1000000000)
  else (seconds, fractionalNanos)
termination_by fractionalNanos.toNat

/-- The second loop of `normalize_timestamp`. -/
def borrowSeconds (seconds fractionalNanos : Int) : Int × Int :=
  if fractionalNanos < 0 then borrowSeconds (seconds - 1) (fractionalNanos + 1000000000)
  else (seconds, fractionalNanos)
termination_by (-fractionalNanos).toNat

/-- The nanoseconds are cast to 32 bits at the end. -/
def normalizeTimestamp (seconds fractionalNanos : Int) : Timestamp :=
  let (seconds, fractionalNanos) := carrySeconds seconds fractionalNanos
  let (seconds, fractionalNanos) := borrowSeconds seconds fractionalNanos
  ⟨seconds, fractionalNanos.bmod (2 ^ 32)⟩

theorem carrySeconds_of_nonneg (seconds : Int) {nanos : Int} (h : 0 ≤ nanos) :
    carrySeconds seconds nanos = (seconds + nanos / 1000000000, nanos % 1000000000) := by
  fun_induction carrySeconds seconds nanos with
  | case1 seconds nanos hge ih =>
    rw [ih (by omega)]
    ext <;> omega
  | case2 seconds nanos hlt =>
    ext <;> omega

/-- **Normalising keeps the instant**: whole seconds are carried over and the
nanoseconds end below one second. -/
theorem normalizeTimestamp_of_nonneg (seconds : Int) {nanos : Int} (h : 0 ≤ nanos) :
    normalizeTimestamp seconds nanos =
      ⟨seconds + nanos / 1000000000, nanos % 1000000000⟩ := by
  have hmod : 0 ≤ nanos % 1000000000 ∧ nanos % 1000000000 < 1000000000 := by omega
  rw [normalizeTimestamp, carrySeconds_of_nonneg seconds h]
  simp only
  rw [borrowSeconds, if_neg (by omega), Int.bmod_eq_of_le (by omega) (by omega)]

end PacketGuard.Core
