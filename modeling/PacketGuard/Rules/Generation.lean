import PacketGuard.Lib.Clock
import PacketGuard.Rules.RuleSetIndex

/-! # The generation of a rule set

An operation that reports no effect changes nothing but diagnostics, and one that
reports an effect advances the generation by one.  The generation is therefore a
clock with a period of `2^64`, at a cost of one for each operation with an effect:
two snapshots of a run with the same generation hold the same rules.
-/
namespace PacketGuard.Rules
open PacketGuard.Core PacketGuard.Lib

/-- The operation reports an effect. -/
def RuleSetOp.effective (m : RuleSetManager) (op : RuleSetOp) : Bool := (op.perform m).2 != 0

namespace RuleSetManager

/-- The rules and the indexes, without generation and diagnostics. -/
def contents (m : RuleSetManager) : List SignatureRule × Multimap Nat Nat × Multimap Str Nat :=
  (m.rules, m.sidIndex, m.classtypeIndex)

section
variable {m : RuleSetManager} {op : RuleSetOp}

theorem unchanged_perform (hop : op ≠ .rebuildIndexes) (hnone : (op.perform m).2 = 0) :
    Unchanged m (op.perform m).1 := by
  have hreports := reports_perform m hop
  generalize op.perform m = result at hreports hnone
  cases hreports with
  | nothing hsame => exact hsame
  | effect hne _ => exact absurd hnone hne

theorem touched_perform (hop : op ≠ .rebuildIndexes) (hsome : (op.perform m).2 ≠ 0) :
    Touched m (op.perform m).1 := by
  have hreports := reports_perform m hop
  generalize op.perform m = result at hreports hsome
  cases hreports with
  | nothing _ => exact absurd rfl hsome
  | effect _ htouched => exact htouched

/-- Where the indexes are those of the rules, an operation without effect, rebuilding
included, changes nothing but diagnostics. -/
theorem Indexed.unchanged_perform (h : Indexed m) (hnone : op.effective m = false) :
    Unchanged m (op.perform m).1 := by
  by_cases hop : op = .rebuildIndexes
  · subst hop
    rw [RuleSetOp.perform, h.rebuildIndexes_eq_self]
    exact ⟨rfl, rfl, rfl, rfl, List.prefix_rfl⟩
  · exact RuleSetManager.unchanged_perform hop (by simpa [RuleSetOp.effective] using hnone)

/-- Rebuilding is no change, so an operation with an effect is another one. -/
theorem touched_of_effective (hsome : op.effective m = true) : Touched m (op.perform m).1 := by
  refine touched_perform ?_ (by simpa [RuleSetOp.effective] using hsome)
  rintro rfl
  exact Bool.false_ne_true hsome

end

/-- **The generation is a clock** of the rules and the indexes. -/
theorem clock_generation :
    ruleSetMachine.Clock Indexed (fun m op => (op.effective m).toNat)
      (fun m => m.generation.toBitVec)
      contents where
  init := indexed_init
  step _ op h := indexed_perform h op
  advances m op h := by
    cases hop : op.effective m with
    | false => rw [ruleSetMachine, (h.unchanged_perform hop).generation, Bool.toNat_false,
      Nat.cast_zero, add_zero]
    | true =>
      have hgeneration := (touched_of_effective hop).generation
      rw [← UInt64.toBitVec_inj] at hgeneration
      rw [Bool.toNat_true, Nat.cast_one]
      exact hgeneration
  idle m op h hnone := by
    obtain ⟨hrules, hsid, hclass, -, -⟩ := h.unchanged_perform (Bool.toNat_eq_zero.mp hnone)
    simp only [ruleSetMachine, contents, hrules, hsid, hclass]

/-- Which operations leave a trace in the generation. -/
structure CountsChanges (m : RuleSetManager) : Prop where
  failure : ∀ op, op ≠ .rebuildIndexes → (RuleSetOp.perform m op).2 = 0 →
    Unchanged m (RuleSetOp.perform m op).1
  success : ∀ op, op ≠ .rebuildIndexes → (RuleSetOp.perform m op).2 ≠ 0 →
    (RuleSetOp.perform m op).1.generation = m.generation + 1

/-- **Generations count changes**: this holds of every state, and two moments of a run of
fewer than `2^64` changes with equal generations have equal rules and indexes. -/
theorem ruleSetMachine_generation (ops : List RuleSetOp) :
    CountsChanges (ruleSetMachine.run ops) ∧
      (ruleSetMachine.changes RuleSetOp.effective ops < 2 ^ 64 →
        ∀ before after, before <+: ops → after <+: ops →
          (ruleSetMachine.run before).generation = (ruleSetMachine.run after).generation →
            (ruleSetMachine.run before).rules = (ruleSetMachine.run after).rules ∧
            (ruleSetMachine.run before).sidIndex = (ruleSetMachine.run after).sidIndex ∧
            (ruleSetMachine.run before).classtypeIndex =
              (ruleSetMachine.run after).classtypeIndex) := by
  refine ⟨⟨fun op => unchanged_perform, fun op hop hsome => (touched_perform hop hsome).generation⟩,
    ?_⟩
  intro hfew before after hbefore hafter hgeneration
  have hcontents := clock_generation.view_eq hfew hbefore hafter (by rw [hgeneration])
  simpa only [contents, Prod.mk.injEq] using hcontents

/-- A rule about remote logins in the clear. -/
def telnetRule : SignatureRule where
  action := .alert
  protocol := .tcp
  destinationPorts := { any := false, ranges := [(23, 23)] }
  options := [⟨"sid".toList, "7".toList⟩]
  sid := 7

/-- Adding a rule counts, replacing one outside the set does not. -/
theorem ruleSetMachine_generation_replace :
    let ops : List RuleSetOp := [.addRule telnetRule, .replaceRule 1 telnetRule, .eraseSid 7]
    (ruleSetMachine.run (ops.take 1)).rules = (ruleSetMachine.run (ops.take 2)).rules := by
  intro ops
  have h := (ruleSetMachine_generation ops).2 (by decide) (ops.take 1) (ops.take 2)
    (List.take_prefix _ _)
    (List.take_prefix _ _) rfl
  exact h.1

end RuleSetManager
end PacketGuard.Rules
