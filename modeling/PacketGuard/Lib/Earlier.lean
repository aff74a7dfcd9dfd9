import Mathlib

/-! Loops over a list that write something at every element, from a summary of
the elements before it.  Each element is shown with what precedes it. -/
namespace PacketGuard.Lib

variable {α β Summary : Type}

/-- Every element with the elements before it, `earlier` being before all of them. -/
def withEarlier (earlier : List α) : List α → List (List α × α)
  | [] => []
  | a :: rest => (earlier, a) :: withEarlier (earlier ++ [a]) rest

/-- An element stands behind those that it is shown with. -/
theorem mem_withEarlier {before earlier items : List α} {a : α} :
    (earlier, a) ∈ withEarlier before items ↔
      ∃ first later, earlier = before ++ first ∧ items = first ++ a :: later := by
  induction items generalizing before with
  | nil => simp [withEarlier]
  | cons b rest ih =>
    rw [withEarlier, List.mem_cons, ih, Prod.mk.injEq]
    constructor
    · rintro (⟨rfl, rfl⟩ | ⟨first, later, rfl, rfl⟩)
      · exact ⟨[], rest, (List.append_nil _).symm, rfl⟩
      · exact ⟨b :: first, later, (List.append_cons ..).symm, rfl⟩
    · rintro ⟨first, later, rfl, hitems⟩
      cases first with
      | nil =>
        cases hitems
        exact .inl ⟨List.append_nil _, rfl⟩
      | cons c first =>
        cases hitems
        exact .inr ⟨first, later, List.append_cons .., rfl⟩

variable {next : Summary → α → Summary} {write : Summary → α → List β}
    {run : Summary → List α → List β}

/-- **Loop rule**: what is written at an element depends on the summary of the earlier ones. -/
theorem run_eq_flatMap (hnil : ∀ s, run s [] = [])
    (hcons : ∀ s a rest, run s (a :: rest) = write s a ++ run (next s a) rest) (s : Summary)
    (earlier items : List α) :
    run (earlier.foldl next s) items =
      (withEarlier earlier items).flatMap fun p => write (p.1.foldl next s) p.2 := by
  induction items generalizing earlier with
  | nil => exact hnil _
  | cons a rest ih =>
    have hsnoc : next (earlier.foldl next s) a = (earlier ++ [a]).foldl next s := by
      rw [List.foldl_append, List.foldl_cons, List.foldl_nil]
    rw [hcons, withEarlier, List.flatMap_cons, hsnoc, ih]

end PacketGuard.Lib
