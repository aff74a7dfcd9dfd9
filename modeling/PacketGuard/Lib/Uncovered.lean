import Mathlib.Data.List.Pairwise
import Mathlib.Data.List.Sort

/-! # Keeping what nothing kept before covers

The elements of a list are gone through in order, and one is kept unless one
kept before covers it.  When the list is sorted so that an element stands before
those it covers, the kept ones are those that no other element covers, once
each: what is kept depends neither on the order nor on repetitions in the list
that was sorted.
-/
namespace PacketGuard.Lib

variable {α : Type} (covers : α → α → Bool)

def keepStep (kept : List α) (x : α) : List α :=
  if kept.any (covers · x) then kept else kept ++ [x]

def keepUncovered (kept xs : List α) : List α := xs.foldl (keepStep covers) kept

variable {covers}

theorem keepStep_sublist (kept : List α) (x : α) :
    (keepStep covers kept x).Sublist (kept ++ [x]) := by
  unfold keepStep
  split
  · exact List.sublist_append_left kept [x]
  · exact List.Sublist.refl _

theorem keepUncovered_sublist (kept xs : List α) :
    (keepUncovered covers kept xs).Sublist (kept ++ xs) := by
  induction xs generalizing kept with
  | nil =>
    rw [List.append_nil]
    exact List.Sublist.refl _
  | cons x xs ih =>
    have hstep : (keepStep covers kept x ++ xs).Sublist (kept ++ x :: xs) := by
      rw [List.append_cons]
      exact (keepStep_sublist kept x).append_right xs
    exact (ih (keepStep covers kept x)).trans hstep

/-- What is kept stays. -/
theorem subset_keepUncovered (kept xs : List α) : kept ⊆ keepUncovered covers kept xs := by
  induction xs generalizing kept with
  | nil => exact List.Subset.refl _
  | cons x xs ih =>
    have hstep : kept ⊆ keepStep covers kept x := by
      unfold keepStep
      split
      · exact List.Subset.refl _
      · exact List.subset_append_left kept [x]
    exact List.Subset.trans hstep (ih (keepStep covers kept x))

/-- Every element is covered by one that is kept. -/
theorem exists_covers_keepUncovered {xs : List α} (hrefl : ∀ x ∈ xs, covers x x = true)
    (kept : List α) :
    ∀ x ∈ xs, ∃ y ∈ keepUncovered covers kept xs, covers y x = true := by
  induction xs generalizing kept with
  | nil => exact fun x hx => absurd hx List.not_mem_nil
  | cons x xs ih =>
    obtain ⟨hx, hxs⟩ := List.forall_mem_cons.mp hrefl
    refine List.forall_mem_cons.mpr ⟨?_, ih hxs (keepStep covers kept x)⟩
    have hstep : ∃ y ∈ keepStep covers kept x, covers y x = true := by
      unfold keepStep
      split
      · rename_i hany
        exact List.any_eq_true.mp hany
      · exact ⟨x, List.mem_append_right kept (List.mem_singleton_self x), hx⟩
    obtain ⟨y, hy, hcovers⟩ := hstep
    exact ⟨y, subset_keepUncovered (keepStep covers kept x) xs hy, hcovers⟩

/-- No kept element covers a later one. -/
theorem pairwise_keepUncovered {kept : List α} (h : kept.Pairwise fun x y => covers x y = false)
    (xs : List α) : (keepUncovered covers kept xs).Pairwise fun x y => covers x y = false := by
  induction xs generalizing kept with
  | nil => exact h
  | cons x xs ih =>
    apply ih
    unfold keepStep
    split
    · exact h
    · rename_i hany
      refine List.pairwise_append.mpr ⟨h, List.pairwise_singleton _ x, ?_⟩
      intro y hy z hz
      cases List.mem_singleton.mp hz
      exact Bool.eq_false_iff.mpr fun hcovers => hany (List.any_eq_true.mpr ⟨y, hy, hcovers⟩)

/-- The elements that `Fit` are sorted, and one stands before those it covers. -/
structure ForwardCover (le : α → α → Bool) (covers : α → α → Bool) (Fit : α → Prop) : Prop where
  le_trans : ∀ x y z, le x y = true → le y z = true → le x z = true
  le_total : ∀ x y, (le x y || le y x) = true
  le_antisymm : ∀ x y, le x y = true → le y x = true → x = y
  refl : ∀ {x}, Fit x → covers x x = true
  trans : ∀ {x y z}, Fit x → Fit y → covers x y = true → covers y z = true → covers x z = true
  forward : ∀ {x y}, Fit x → covers x y = true → le x y = true

variable (covers)

/-- The loop over the sorted list. -/
def keepSorted (le : α → α → Bool) (xs : List α) : List α :=
  keepUncovered covers [] (xs.mergeSort le)

variable {covers} {le : α → α → Bool} {Fit : α → Prop}

namespace ForwardCover
variable (hcover : ForwardCover le covers Fit) {xs ys : List α}
include hcover

theorem antisymm {x y : α} (hx : Fit x) (hy : Fit y) (hxy : covers x y = true)
    (hyx : covers y x = true) :
    x = y :=
  hcover.le_antisymm x y (hcover.forward hx hxy) (hcover.forward hy hyx)

omit hcover in
theorem keepSorted_sublist (xs : List α) : (keepSorted covers le xs).Sublist (xs.mergeSort le) :=
  keepUncovered_sublist [] (xs.mergeSort le)

omit hcover in
theorem mem_of_mem_keepSorted {x : α} (h : x ∈ keepSorted covers le xs) : x ∈ xs :=
  List.mem_mergeSort.mp ((keepSorted_sublist xs).subset h)

theorem pairwise_le_keepSorted (xs : List α) :
    (keepSorted covers le xs).Pairwise fun x y => le x y = true :=
  (List.pairwise_mergeSort hcover.le_trans hcover.le_total xs).sublist (keepSorted_sublist xs)

/-- Of two kept elements neither covers the other. -/
theorem pairwise_keepSorted (hfit : ∀ x ∈ xs, Fit x) :
    (keepSorted covers le xs).Pairwise fun x y => covers x y = false ∧ covers y x = false := by
  have hforward : (keepSorted covers le xs).Pairwise fun x y => covers x y = false :=
    pairwise_keepUncovered List.Pairwise.nil _
  refine (hforward.and (hcover.pairwise_le_keepSorted xs)).imp_of_mem ?_
  rintro x y hx hy ⟨hxy, hle⟩
  refine ⟨hxy, Bool.eq_false_iff.mpr fun hyx => ?_⟩
  -- a later element that covers an earlier one is equal to it
  have hxfit := hfit x (mem_of_mem_keepSorted hx)
  have heq := hcover.le_antisymm x y hle (hcover.forward (hfit y (mem_of_mem_keepSorted hy)) hyx)
  subst heq
  rw [hcover.refl hxfit] at hxy
  cases hxy

theorem exists_covers_keepSorted (hfit : ∀ x ∈ xs, Fit x) {x : α} (hx : x ∈ xs) :
    ∃ y ∈ keepSorted covers le xs, covers y x = true :=
  exists_covers_keepUncovered (fun y hy => hcover.refl (hfit y (List.mem_mergeSort.mp hy))) [] x
    (List.mem_mergeSort.mpr hx)

/-- **What is kept** are the elements that no other one covers. -/
theorem mem_keepSorted_iff (hfit : ∀ x ∈ xs, Fit x) {x : α} :
    x ∈ keepSorted covers le xs ↔ x ∈ xs ∧ ∀ y ∈ xs, covers y x = true → y = x := by
  constructor
  · intro hx
    have hmem := mem_of_mem_keepSorted hx
    refine ⟨hmem, fun y hy hyx => ?_⟩
    obtain ⟨z, hz, hzy⟩ := hcover.exists_covers_keepSorted hfit hy
    have hzfit := hfit z (mem_of_mem_keepSorted hz)
    have hzx := hcover.trans hzfit (hfit y hy) hzy hyx
    -- two kept elements are not covered one by the other, so they are the same
    have hapart : Std.Symm fun x y => covers x y = false ∧ covers y x = false :=
      ⟨fun _ _ h => ⟨h.2, h.1⟩⟩
    by_cases hne : z = x
    · subst hne
      exact hcover.antisymm (hfit y hy) hzfit hyx hzy
    · rw [((hcover.pairwise_keepSorted hfit).forall hz hx hne).1] at hzx
      cases hzx
  · rintro ⟨hx, hmax⟩
    obtain ⟨y, hy, hyx⟩ := hcover.exists_covers_keepSorted hfit hx
    rw [← hmax y (mem_of_mem_keepSorted hy) hyx]
    exact hy

theorem nodup_keepSorted (hfit : ∀ x ∈ xs, Fit x) : (keepSorted covers le xs).Nodup := by
  refine (hcover.pairwise_keepSorted hfit).imp_of_mem ?_
  rintro x y hx - ⟨hxy, -⟩ rfl
  rw [hcover.refl (hfit x (mem_of_mem_keepSorted hx))] at hxy
  cases hxy

theorem keepSorted_eq_of_mem_iff (hfit : ∀ x ∈ xs, Fit x) (hfit' : ∀ y ∈ ys, Fit y)
    (h : ∀ x, x ∈ keepSorted covers le xs ↔ x ∈ keepSorted covers le ys) :
    keepSorted covers le xs = keepSorted covers le ys :=
  List.Perm.eq_of_pairwise (fun x y _ _ => hcover.le_antisymm x y)
    (hcover.pairwise_le_keepSorted xs)
    (hcover.pairwise_le_keepSorted ys)
    ((List.perm_ext_iff_of_nodup (hcover.nodup_keepSorted hfit) (hcover.nodup_keepSorted hfit')).mpr
      h)

/-- **Order and repetitions** make no difference. -/
theorem keepSorted_congr (hfit : ∀ x ∈ xs, Fit x) (h : ∀ x, x ∈ ys ↔ x ∈ xs) :
    keepSorted covers le ys = keepSorted covers le xs := by
  have hfit' : ∀ y ∈ ys, Fit y := fun y hy => hfit y ((h y).mp hy)
  refine hcover.keepSorted_eq_of_mem_iff hfit' hfit fun x => ?_
  rw [hcover.mem_keepSorted_iff hfit, hcover.mem_keepSorted_iff hfit', h x]
  simp only [h]

/-- **Of the kept elements** all are kept. -/
theorem keepSorted_keepSorted (hfit : ∀ x ∈ xs, Fit x) :
    keepSorted covers le (keepSorted covers le xs) = keepSorted covers le xs := by
  have hfit' : ∀ x ∈ keepSorted covers le xs, Fit x := fun x hx => hfit x (mem_of_mem_keepSorted hx)
  refine hcover.keepSorted_eq_of_mem_iff hfit' hfit fun x => ?_
  rw [hcover.mem_keepSorted_iff hfit']
  constructor
  · exact And.left
  · intro hx
    refine ⟨hx, fun y hy => ?_⟩
    exact ((hcover.mem_keepSorted_iff hfit).mp hx).2 y (mem_of_mem_keepSorted hy)

end ForwardCover

end PacketGuard.Lib
