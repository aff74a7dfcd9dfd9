import PacketGuard.Ioc.Index

/-! # What one operation can do

An operation of an `IndicatorIndex` adds indicators one by one, switches one
record on or off, changes one role, rebuilds the maps or drops the inactive
records.  `Change` lists these cases; what all of them keep, every run keeps.
-/
namespace PacketGuard.Ioc
open PacketGuard.Core PacketGuard.Lib
open IndicatorIndex

/-- The indicators that an operation adds. -/
def addedBy : IndexOp → List Indicator
  | .add ind => [ind]
  | .addSet set => set.indicators
  | _ => []

/-- The operation is no `update_role`. -/
def KeepsRoles : IndexOp → Prop
  | .updateRole _ _ => False
  | _ => True

/-- The states an operation can lead to from `idx`. -/
inductive Change (idx : IndicatorIndex) : IndexOp → IndicatorIndex → Prop
  | adds {op : IndexOp} :
      KeepsRoles op → Change idx op (indexMachine.runFrom idx ((addedBy op).map .add))
  | switches {op : IndexOp} (slot : Nat) (on : Bool) :
      KeepsRoles op → addedBy op = [] →
      Change idx op (changeRecord idx slot fun rec => { rec with active := on })
  | noRecord {id : Nat} {role : ListRole} :
      recordOf idx id = none → Change idx (.updateRole id role) idx
  | role {id slot : Nat} {rec : IndexedIndicator} {role : ListRole} :
      recordOf idx id = some (slot, rec) →
      Change idx (.updateRole id role)
        (changeRecord idx slot fun rec =>
          { rec with indicator := { rec.indicator with role := role } })
  | rebuild : Change idx .rebuild (rebuild idx)
  | compact : Change idx .compact (compact idx)

/-- `add_set` adds the indicators one by one. -/
theorem addSet_eq_runFrom (idx : IndicatorIndex) (set : IndicatorSet) :
    (addSet idx set).1 = indexMachine.runFrom idx (set.indicators.map .add) := by
  have hloop : ∀ (inds : List Indicator) (idx : IndicatorIndex) (added : Nat),
      (inds.foldl (fun acc ind => ((add acc.1 ind).1, acc.2 + 1)) (idx, added)).1 =
        indexMachine.runFrom idx (inds.map .add) := by
    intro inds
    induction inds with
    | nil => exact fun _ _ => rfl
    | cons ind inds ih => exact fun idx added => ih (add idx ind).1 (added + 1)
  exact hloop set.indicators idx 0

/-- What adding one indicator keeps, adding many keeps. -/
theorem runFrom_adds (Inv : IndicatorIndex → Prop) {inds : List Indicator}
    (hadd : ∀ idx, ∀ ind ∈ inds, Inv idx → Inv (add idx ind).1) {idx : IndicatorIndex}
    (h : Inv idx) :
    Inv (indexMachine.runFrom idx (inds.map .add)) := by
  refine indexMachine.runFrom_invariant (P := fun op => ∃ ind ∈ inds, op = .add ind) ?_ ?_ h
  · rintro idx op ⟨ind, hind, rfl⟩ hidx
    exact hadd idx ind hind hidx
  · intro op hop
    obtain ⟨ind, hind, rfl⟩ := List.mem_map.mp hop
    exact ⟨ind, hind, rfl⟩

section
variable {op : IndexOp} (hroles : KeepsRoles op) (hadds : addedBy op = []) (idx : IndicatorIndex)
include hroles hadds

/-- An operation that adds nothing may have no effect. -/
theorem Change.nothing : Change idx op idx := by
  have h : Change idx op (indexMachine.runFrom idx ((addedBy op).map .add)) := .adds hroles
  rwa [hadds] at h

theorem change_removeId (id : Nat) : Change idx op (removeId idx id).1 := by
  unfold removeId
  rcases recordOf idx id with _ | ⟨slot, rec⟩
  · exact .nothing hroles hadds idx
  · by_cases hactive : rec.active
    · simp only [hactive]
      exact .switches slot false hroles hadds
    · simp only [hactive]
      exact .nothing hroles hadds idx

theorem change_reactivateId (id : Nat) : Change idx op (reactivateId idx id).1 := by
  unfold reactivateId
  rcases recordOf idx id with _ | ⟨slot, rec⟩
  · exact .nothing hroles hadds idx
  · by_cases hactive : rec.active
    · simp only [hactive]
      exact .nothing hroles hadds idx
    · simp only [hactive]
      exact .switches slot true hroles hadds

/-- `remove_key` removes the record of the key by its identifier. -/
theorem change_removeKey (key : Str) : Change idx op (removeKey idx key).1 := by
  unfold removeKey
  rcases idx.keyToSlot[key]?.bind fun slot => idx.records[slot]? with _ | rec
  · exact .nothing hroles hadds idx
  · exact change_removeId hroles hadds idx rec.id

end

theorem change_updateRole (idx : IndicatorIndex) (id : Nat) (role : ListRole) :
    Change idx (.updateRole id role) (updateRole idx id role).1 := by
  unfold updateRole
  rcases hrec : recordOf idx id with _ | ⟨slot, rec⟩
  · exact .noRecord hrec
  · exact .role hrec

/-- **Every operation is one of the changes.** -/
theorem change_step (idx : IndicatorIndex) (op : IndexOp) :
    Change idx op (indexMachine.step idx op) := by
  cases op with
  | add ind => exact .adds trivial
  | addSet set =>
    have h : Change idx (.addSet set) (indexMachine.runFrom idx (set.indicators.map .add)) :=
      .adds trivial
    rwa [← addSet_eq_runFrom] at h
  | removeId id => exact change_removeId (show KeepsRoles (.removeId id) from trivial) rfl idx id
  | removeKey key =>
    exact change_removeKey (show KeepsRoles (.removeKey key) from trivial) rfl idx key
  | reactivateId id =>
    exact change_reactivateId (show KeepsRoles (.reactivateId id) from trivial) rfl idx id
  | updateRole id role => exact change_updateRole idx id role
  | rebuild => exact .rebuild
  | compact => exact .compact

end PacketGuard.Ioc
