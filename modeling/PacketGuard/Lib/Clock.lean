import PacketGuard.Lib.Machine

/-! # Clocks that count

A clock of a machine is a value of the state that every operation advances by its
cost, and an operation without cost leaves what the clock is about, the view,
alone.  The clock has a period: its values are those of an additive monoid with
one in which `period` ones make zero, a counter of so many bits for instance.

The clock alone does not say that nothing happened between two moments of a run
at which it shows the same: it may have come round.  That takes a whole period of
cost, so in a run that costs less than a period two moments with equal clocks have
equal views (`Clock.view_eq`).  Of two prefixes of a run one is a prefix of the
other, which leaves the operations between them, and they have cost nothing.
-/
namespace PacketGuard.Lib

instance charP_bitVec (w : Nat) : CharP (BitVec w) (2 ^ w) where
  cast_eq_zero_iff n := by
    rw [← BitVec.toNat_inj, BitVec.natCast_eq_ofNat, BitVec.toNat_ofNat]
    exact Nat.dvd_iff_mod_eq_zero.symm

namespace Machine
variable {State Op T View : Type} (m : Machine State Op)

/-- What the operations cost together, from a state on. -/
def costFrom (cost : State → Op → Nat) (s : State) : List Op → Nat
  | [] => 0
  | op :: ops => cost s op + costFrom cost (m.step s op) ops

/-- What the operations of a run cost together. -/
def cost (cost : State → Op → Nat) (ops : List Op) : Nat := m.costFrom cost m.init ops

/-- How many operations of a run count as changes, at a cost of one each. -/
def changes (changes : State → Op → Bool) (ops : List Op) : Nat :=
  m.cost (fun s op => (changes s op).toNat) ops

/-- **A clock** of the view, in states with `Inv`. -/
structure Clock [AddMonoidWithOne T] (Inv : State → Prop) (cost : State → Op → Nat)
    (clock : State → T)
    (view : State → View) : Prop where
  init : Inv m.init
  step : ∀ s op, Inv s → Inv (m.step s op)
  advances : ∀ s op, Inv s → clock (m.step s op) = clock s + (cost s op : T)
  idle : ∀ s op, Inv s → cost s op = 0 → view (m.step s op) = view s

section
variable {m} {Inv : State → Prop} {cost : State → Op → Nat} {clock : State → T}
    {view : State → View}

theorem costFrom_append (s : State) (ops ops' : List Op) :
    m.costFrom cost s (ops ++ ops') =
      m.costFrom cost s ops + m.costFrom cost (m.runFrom s ops) ops' := by
  induction ops generalizing s with
  | nil => exact (Nat.zero_add _).symm
  | cons op ops ih =>
    rw [List.cons_append, costFrom, ih, costFrom, runFrom_cons]
    omega

namespace Clock
variable [AddMonoidWithOne T]

theorem run (h : m.Clock Inv cost clock view) (ops : List Op) : Inv (m.run ops) :=
  m.run_invariant (P := fun _ => True) h.init (fun s op _ => h.step s op) fun _ _ => trivial

/-- The clock has advanced by the cost. -/
theorem clock_runFrom (h : m.Clock Inv cost clock view) {s : State} (hs : Inv s) (ops : List Op) :
    clock (m.runFrom s ops) = clock s + (m.costFrom cost s ops : T) := by
  induction ops generalizing s with
  | nil => rw [costFrom, Nat.cast_zero, add_zero, runFrom_nil]
  | cons op ops ih =>
    rw [runFrom_cons, ih (h.step s op hs), h.advances s op hs, costFrom, Nat.cast_add, add_assoc]

/-- Without cost the view stays as it is. -/
theorem view_runFrom (h : m.Clock Inv cost clock view) {s : State} (hs : Inv s) {ops : List Op}
    (hnone : m.costFrom cost s ops = 0) : view (m.runFrom s ops) = view s := by
  induction ops generalizing s with
  | nil => rfl
  | cons op ops ih =>
    obtain ⟨hop, hops⟩ := Nat.add_eq_zero_iff.mp hnone
    rw [runFrom_cons, ih (h.step s op hs) hops, h.idle s op hs hop]

variable [IsLeftCancelAdd T] {period : Nat} [CharP T period]

/-- **Equal clocks, equal views**, for two moments of a run that costs less than a period. -/
theorem view_eq (h : m.Clock Inv cost clock view) {ops before after : List Op}
    (hfew : m.cost cost ops < period) (hbefore : before <+: ops) (hafter : after <+: ops)
    (hclock : clock (m.run before) = clock (m.run after)) :
    view (m.run before) = view (m.run after) := by
  have hordered : ∀ {before after : List Op}, before <+: after → after <+: ops →
      clock (m.run before) = clock (m.run after) → view (m.run after) = view (m.run before) := by
    rintro before _ ⟨between, rfl⟩ ⟨rest, rfl⟩ hclock
    have hcost : m.costFrom cost (m.run before) between < period := by
      rw [Machine.cost, costFrom_append, costFrom_append, ← Machine.run] at hfew
      omega
    -- the clock has come back, by less than a period: it has not moved
    rw [run_append, h.clock_runFrom (h.run before), left_eq_add, CharP.cast_eq_zero_iff T period]
      at hclock
    rw [run_append]
    exact h.view_runFrom (h.run before) (Nat.eq_zero_of_dvd_of_lt hclock hcost)
  obtain hle | hle := List.prefix_or_prefix_of_prefix hbefore hafter
  · exact (hordered hle hafter hclock).symm
  · exact hordered hle hbefore hclock.symm

end Clock
end

end Machine
end PacketGuard.Lib
