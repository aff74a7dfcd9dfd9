import Mathlib.Data.List.Perm.Basic

/-! # Items that veto others

Some items of a list are vetoers: each removes the items that share its key,
other vetoers excepted.  What is left, and how it changes with the list, does
not depend on what items, keys and vetoers are.
-/
namespace PacketGuard.Lib

variable {α κ : Type} [BEq κ]

/-- The items that no vetoer of the list removes. -/
def survivors (vetoes : α → Bool) (key : α → κ) (items : List α) : List α :=
  items.filter fun x => !(items.any fun y => vetoes y && key y == key x) || vetoes x

variable {vetoes : α → Bool} {key : α → κ} {items more : List α} {x : α}

theorem mem_survivors [LawfulBEq κ] : x ∈ survivors vetoes key items ↔
    x ∈ items ∧ (vetoes x = true ∨ ∀ y ∈ items, vetoes y = true → key y ≠ key x) := by
  rw [survivors, List.mem_filter, Bool.or_eq_true, Bool.not_eq_true', List.any_eq_false, or_comm]
  simp only [Bool.and_eq_true, beq_iff_eq, not_and]

/-- Removing twice removes nothing more: the vetoers are still there. -/
theorem survivors_survivors [LawfulBEq κ] :
    survivors vetoes key (survivors vetoes key items) = survivors vetoes key items := by
  refine List.filter_eq_self.mpr fun x hx => ?_
  obtain ⟨-, h | h⟩ := mem_survivors.mp hx
  · simp [h]
  · rw [Bool.or_eq_true, Bool.not_eq_true', List.any_eq_false]
    refine Or.inl fun y hy => ?_
    simp only [Bool.and_eq_true, beq_iff_eq, not_and]
    exact h y (List.mem_of_mem_filter hy)

theorem survivors_perm (h : items.Perm more) :
    (survivors vetoes key items).Perm (survivors vetoes key more) := by
  have hany : ∀ p : α → Bool, items.any p = more.any p := by
    intro p
    rw [Bool.eq_iff_iff, List.any_eq_true, List.any_eq_true]
    simp only [h.mem_iff]
  unfold survivors
  simp only [hany]
  exact h.filter _

end PacketGuard.Lib
