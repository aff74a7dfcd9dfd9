import Mathlib

/-! Runs of a deterministic machine: an initial state, and what each operation
does to a state.  A property of all runs is proved by one induction, stated
here once, from what a single operation preserves. -/
namespace PacketGuard.Lib

/-- A deterministic machine over operations `Op`. -/
structure Machine (State Op : Type) where
  init : State
  step : State → Op → State

namespace Machine
variable {State Op : Type} (m : Machine State Op)

/-- The state reached from `s` by the operations `ops`, in order. -/
def runFrom (s : State) (ops : List Op) : State := ops.foldl m.step s

/-- The state reached from the initial state. -/
def run (ops : List Op) : State := m.runFrom m.init ops

@[simp] theorem runFrom_nil (s : State) : m.runFrom s [] = s := rfl

@[simp] theorem runFrom_cons (s : State) (op : Op) (ops : List Op) :
    m.runFrom s (op :: ops) = m.runFrom (m.step s op) ops := rfl

@[simp] theorem run_nil : m.run [] = m.init := rfl

theorem run_concat (ops : List Op) (op : Op) :
    m.run (ops ++ [op]) = m.step (m.run ops) op := by
  simp [run, runFrom]

theorem run_append (ops ops' : List Op) :
    m.run (ops ++ ops') = m.runFrom (m.run ops) ops' := by
  simp [run, runFrom]

/-- What every operation keeps, a run from any state keeps. -/
theorem runFrom_invariant {Inv : State → Prop} {P : Op → Prop}
    (step : ∀ s op, P op → Inv s → Inv (m.step s op)) {ops : List Op} (hok : ∀ op ∈ ops, P op)
    {s : State} (h : Inv s) : Inv (m.runFrom s ops) := by
  induction ops generalizing s with
  | nil => exact h
  | cons op ops ih =>
    exact ih (fun o ho => hok o (by simp [ho])) (step s op (hok op (by simp)) h)

/-- **Run rule.**  A property of the operations done so far and the state they
reach holds of every run, if it holds at the start and every operation keeps
it. -/
theorem run_induction {P : List Op → State → Prop} (init : P [] m.init)
    (step : ∀ ops op, P ops (m.run ops) → P (ops ++ [op]) (m.step (m.run ops) op)) :
    ∀ ops, P ops (m.run ops) := by
  intro ops
  induction ops using List.reverseRecOn with
  | nil => exact init
  | append_singleton ops op ih =>
    rw [run_concat]
    exact step ops op ih

/-- **Invariant rule**, for runs whose operations all satisfy `P`. -/
theorem run_invariant {Inv : State → Prop} {P : Op → Prop} (init : Inv m.init)
    (step : ∀ s op, P op → Inv s → Inv (m.step s op)) {ops : List Op}
    (hok : ∀ op ∈ ops, P op) : Inv (m.run ops) :=
  m.runFrom_invariant step hok init

end Machine
end PacketGuard.Lib
