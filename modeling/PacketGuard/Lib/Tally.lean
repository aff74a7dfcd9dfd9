import PacketGuard.Lib.Multimap

/-! Maps that count how often each key occurs: `hist[key]++` for every item. -/
namespace PacketGuard.Lib
open Std

variable {κ : Type} [Ord κ] [TransOrd κ]

/-- One more of the key. -/
def bump (m : ExtTreeMap κ Nat compare) (k : κ) : ExtTreeMap κ Nat compare :=
  m.alter k fun n => some (n.getD 0 + 1)

/-- Count all keys, from left to right. -/
def countAll (keys : List κ) : ExtTreeMap κ Nat compare := keys.foldl bump ∅

theorem countAll_concat (keys : List κ) (k : κ) :
    countAll (keys ++ [k]) = bump (countAll keys) k := by
  simp [countAll]

variable [LawfulEqOrd κ] [DecidableEq κ]

/-- A key has the number of its occurrences, if there are any. -/
theorem getElem?_countAll (keys : List κ) (k : κ) :
    (countAll keys)[k]? = if keys.count k = 0 then none else some (keys.count k) := by
  induction keys using List.reverseRecOn with
  | nil => simp [countAll]
  | append_singleton keys key ih =>
    rw [countAll_concat, bump, ExtTreeMap.getElem?_alter, List.count_append, List.count_singleton]
    by_cases h : key = k
    · subst h
      by_cases hcount : keys.count key = 0 <;> simp [ih, hcount]
    · simp [h, ih]

theorem mem_toList_countAll {keys : List κ} {k : κ} {n : Nat} :
    (k, n) ∈ (countAll keys).toList ↔ k ∈ keys ∧ n = keys.count k := by
  rw [ExtTreeMap.mem_toList_iff_getElem?_eq_some, getElem?_countAll]
  by_cases hcount : keys.count k = 0
  · rw [if_pos hcount]
    exact iff_of_false (by simp) fun h => List.count_eq_zero.mp hcount h.1
  · rw [if_neg hcount, Option.some.injEq, eq_comm]
    exact (and_iff_right (List.count_pos_iff.mp (Nat.pos_of_ne_zero hcount))).symm

/-- Items counted by a key that each of them has. -/
theorem mem_toList_countAll_map {τ : Type} {items : List τ} {f : τ → κ} {k : κ} {n : Nat} :
    (k, n) ∈ (countAll (items.map f)).toList ↔ (∃ x ∈ items, f x = k) ∧ n = items.countP fun x =>
    f x = k := by
  rw [mem_toList_countAll, List.mem_map, List.count_eq_countP, List.countP_map]
  rfl

/-- The counts of all keys add up to the number of items. -/
theorem sum_countAll (keys : List κ) : ((countAll keys).toList.map Prod.snd).sum = keys.length := by
  have hkeys : ((countAll keys).toList.map Prod.fst).Perm keys.dedup := by
    rw [List.perm_ext_iff_of_nodup ?_ keys.nodup_dedup]
    · intro k
      rw [List.mem_dedup, List.mem_map]
      constructor
      · rintro ⟨⟨k, n⟩, hmem, rfl⟩
        exact (mem_toList_countAll.mp hmem).1
      · exact fun h => ⟨(k, keys.count k), mem_toList_countAll.mpr ⟨h, rfl⟩, rfl⟩
    · rw [ExtTreeMap.map_fst_toList_eq_keys]
      exact ExtTreeMap.nodup_keys
  have hcounts : (countAll keys).toList.map Prod.snd =
      ((countAll keys).toList.map Prod.fst).map fun k => keys.count k := by
    rw [List.map_map]
    exact List.map_congr_left fun p hp => (mem_toList_countAll.mp hp).2
  rw [hcounts, (hkeys.map _).sum_eq, List.sum_map_count_dedup_eq_length]

/-- The map has the keys of the items, each with the number of its items, and these
add up to all items. -/
structure Counts {τ : Type} (m : ExtTreeMap κ Nat compare) (items : List τ) (f : τ → κ) : Prop where
  entries : ∀ k n, (k, n) ∈ m.toList ↔ (∃ x ∈ items, f x = k) ∧ n = items.countP fun x => f x = k
  total : (m.toList.map Prod.snd).sum = items.length

theorem counts_countAll {τ : Type} (items : List τ) (f : τ → κ) :
    Counts (countAll (items.map f)) items f where
  entries _ _ := mem_toList_countAll_map
  total := by rw [sum_countAll, List.length_map]

end PacketGuard.Lib
