import PacketGuard.Lib.Multimap

/-! Indexes over the positions of a list: each element may have a key, and the
index files the positions under the keys.  What an index answers is said here in
terms of the list alone. -/
namespace PacketGuard.Lib
open Std

variable {α κ : Type}

/-- The positions of the elements with a key, under their keys. -/
def positionsBy (key : α → Option κ) (xs : List α) : List (κ × Nat) :=
  xs.zipIdx.filterMap fun (x, i) => (key x).map fun k => (k, i)

variable {key : α → Option κ}

theorem positionsBy_concat (xs : List α) (x : α) :
    positionsBy key (xs ++ [x]) =
      positionsBy key xs ++ ((key x).map fun k => (k, xs.length)).toList := by
  unfold positionsBy
  rw [List.zipIdx_append, List.filterMap_append]
  cases h : key x <;> simp [h]

/-- Elements with the same keys have the same positions. -/
theorem positionsBy_map {β : Type} {f : α → β} {key' : β → Option κ} (h : ∀ x, key' (f x) = key x)
    (xs : List α) : positionsBy key' (xs.map f) = positionsBy key xs := by
  induction xs using List.reverseRecOn with
  | nil => rfl
  | append_singleton xs x ih =>
    rw [List.map_append, List.map_singleton, positionsBy_concat, positionsBy_concat, ih, h,
      List.length_map]

/-- The keys in use, with repetitions. -/
theorem map_fst_positionsBy (xs : List α) :
    (positionsBy key xs).map Prod.fst = xs.filterMap key := by
  induction xs using List.reverseRecOn with
  | nil => rfl
  | append_singleton xs x ih =>
    rw [positionsBy_concat, List.map_append, ih, List.filterMap_append]
    cases h : key x <;> simp [h]

section
variable [DecidableEq κ]

theorem valuesOf_positionsBy_concat (k : κ) (xs : List α) (x : α) :
    valuesOf k (positionsBy key (xs ++ [x])) =
      valuesOf k (positionsBy key xs) ++ if key x = some k then [xs.length] else [] := by
  rw [positionsBy_concat]
  cases h : key x with
  | none => simp
  | some k' => rw [Option.map_some, Option.toList_some, valuesOf_concat]; simp

/-- As many positions are filed under a key as there are elements with the key. -/
theorem length_valuesOf_positionsBy (k : κ) (xs : List α) :
    (valuesOf k (positionsBy key xs)).length = xs.countP fun x => key x = some k := by
  induction xs using List.reverseRecOn with
  | nil => rfl
  | append_singleton xs x ih =>
    rw [valuesOf_positionsBy_concat, List.length_append, ih, List.countP_append]
    by_cases h : key x = some k <;> simp [h]

/-- The positions under a key are those of the elements with the key. -/
theorem mem_valuesOf_positionsBy {k : κ} {xs : List α} {i : Nat} :
    i ∈ valuesOf k (positionsBy key xs) ↔ ∃ x, xs[i]? = some x ∧ key x = some k := by
  rw [mem_valuesOf, positionsBy, List.mem_filterMap]
  constructor
  · rintro ⟨⟨x, j⟩, hmem, heq⟩
    obtain ⟨k', hk', heq⟩ := Option.map_eq_some_iff.mp heq
    cases heq
    exact ⟨x, List.mk_mem_zipIdx_iff_getElem?.mp hmem, hk'⟩
  · rintro ⟨x, hx, hk⟩
    exact ⟨(x, i), List.mk_mem_zipIdx_iff_getElem?.mpr hx, by simp [hk]⟩

/-- The positions under a key increase. -/
theorem valuesOf_positionsBy_sorted (k : κ) (xs : List α) :
    (valuesOf k (positionsBy key xs)).Pairwise (· < ·) := by
  have hsub : (valuesOf k (positionsBy key xs)).Sublist (List.range xs.length) := by
    induction xs using List.reverseRecOn with
    | nil => exact List.Sublist.refl _
    | append_singleton xs x ih =>
      rw [valuesOf_positionsBy_concat, List.length_append, List.length_singleton, List.range_succ]
      refine ih.append ?_
      by_cases h : key x = some k <;> simp [h]
  exact List.pairwise_lt_range.sublist hsub

/-- The elements at the positions under a key are the elements with the key, in order. -/
theorem filterMap_positionsBy (k : κ) (xs : List α) :
    (valuesOf k (positionsBy key xs)).filterMap (fun i => xs[i]?) =
      xs.filter fun x => key x = some k := by
  induction xs using List.reverseRecOn with
  | nil => rfl
  | append_singleton xs x ih =>
    -- the positions of the old elements are those of the old list
    have hold : (valuesOf k (positionsBy key xs)).filterMap (fun i => (xs ++ [x])[i]?) =
        (valuesOf k (positionsBy key xs)).filterMap (fun i => xs[i]?) := by
      refine List.filterMap_congr fun i hi => ?_
      obtain ⟨y, hy, -⟩ := mem_valuesOf_positionsBy.mp hi
      exact List.getElem?_append_left (List.getElem?_eq_some_iff.mp hy).1
    rw [valuesOf_positionsBy_concat, List.filterMap_append, hold, ih, List.filter_append]
    by_cases h : key x = some k <;> simp [h]

end

/-- **What an index of positions answers**: the increasing list of the positions
with the key, and nothing when there are none. -/
theorem getElem?_fileAll_positionsBy [Ord κ] [TransOrd κ] [LawfulEqOrd κ] [DecidableEq κ] {k : κ}
    {xs : List α} {positions : List Nat} :
    (fileAll (positionsBy key xs))[k]? = some positions ↔
      positions ≠ [] ∧ positions.Pairwise (· < ·) ∧
        ∀ i, i ∈ positions ↔ ∃ x, xs[i]? = some x ∧ key x = some k := by
  rw [getElem?_fileAll]
  constructor
  · intro h
    split at h
    · cases h
    · rename_i hne
      cases h
      exact ⟨hne, valuesOf_positionsBy_sorted k xs, fun i => mem_valuesOf_positionsBy⟩
  · rintro ⟨hne, hsorted, hmem⟩
    -- increasing lists with the same members are equal
    have heq : valuesOf k (positionsBy key xs) = positions := by
      refine (valuesOf_positionsBy_sorted k xs).eq_of_mem_iff hsorted fun i => ?_
      rw [mem_valuesOf_positionsBy, hmem]
    rw [heq, if_neg hne]

end PacketGuard.Lib
