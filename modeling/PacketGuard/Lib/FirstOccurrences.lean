import Mathlib

/-! Lists split by a key into the elements whose key comes up for the first time
and the repeats.  Doing so piece by piece and then for what is left is doing it
once. -/
namespace PacketGuard.Lib

variable {α β κ : Type} [DecidableEq κ] {key : α → κ}

/-- The elements whose key has come up before, or (`again = false`) has not; the keys
`seen` have. -/
def occurrences (again : Bool) (key : α → κ) (seen : List κ) : List α → List α
  | [] => []
  | x :: xs =>
    if decide (key x ∈ seen) = again then x :: occurrences again key (key x :: seen) xs
    else occurrences again key (key x :: seen) xs

/-- The first elements with their keys. -/
abbrev firsts (key : α → κ) (seen : List κ) (xs : List α) : List α := occurrences false key seen xs

/-- The other elements. -/
abbrev repeats (key : α → κ) (seen : List κ) (xs : List α) : List α := occurrences true key seen xs

theorem firsts_cons (seen : List κ) (x : α) (xs : List α) :
    firsts key seen (x :: xs) =
      if key x ∈ seen then firsts key (key x :: seen) xs
        else x :: firsts key (key x :: seen) xs := by
  by_cases hx : key x ∈ seen <;> simp [occurrences, hx]

theorem repeats_cons (seen : List κ) (x : α) (xs : List α) :
    repeats key seen (x :: xs) =
      if key x ∈ seen then x :: repeats key (key x :: seen) xs
        else repeats key (key x :: seen) xs := by
  by_cases hx : key x ∈ seen <;> simp [occurrences, hx]

/-! ## Splitting -/

theorem occurrences_sublist (again : Bool) (seen : List κ) (xs : List α) :
    (occurrences again key seen xs).Sublist xs := by
  induction xs generalizing seen with
  | nil => exact List.Sublist.refl _
  | cons x xs ih =>
    unfold occurrences
    split
    · exact (ih _).cons_cons x
    · exact (ih _).cons x

/-- Every element is a first occurrence or a repeat, and only one of the two. -/
theorem firsts_append_repeats_perm (seen : List κ) (xs : List α) :
    (firsts key seen xs ++ repeats key seen xs).Perm xs := by
  induction xs generalizing seen with
  | nil => exact List.Perm.refl _
  | cons x xs ih =>
    rw [firsts_cons, repeats_cons]
    by_cases hx : key x ∈ seen
    · rw [if_pos hx, if_pos hx]
      exact List.perm_middle.trans ((ih _).cons x)
    · rw [if_neg hx, if_neg hx]
      exact (ih _).cons x

theorem occurrences_append (again : Bool) (seen : List κ) (xs ys : List α) :
    occurrences again key seen (xs ++ ys) =
      occurrences again key seen xs ++ occurrences again key ((xs.map key).reverse ++ seen) ys := by
  induction xs generalizing seen with
  | nil => rfl
  | cons x xs ih =>
    rw [List.cons_append, occurrences, occurrences, ih, List.map_cons, List.reverse_cons,
      List.append_assoc, List.singleton_append]
    split <;> rfl

theorem firsts_append (seen : List κ) (xs ys : List α) :
    firsts key seen (xs ++ ys) = firsts key seen xs ++
      firsts key ((xs.map key).reverse ++ seen) ys :=
  occurrences_append false seen xs ys

theorem firsts_concat (xs : List α) (x : α) :
    firsts key [] (xs ++ [x]) = firsts key [] xs ++ if key x ∈ xs.map key then [] else [x] := by
  rw [firsts_append, firsts_cons, List.append_nil]
  simp only [List.mem_reverse]
  rfl

theorem repeats_concat (xs : List α) (x : α) :
    repeats key [] (xs ++ [x]) = repeats key [] xs ++ if key x ∈ xs.map key then [x] else [] := by
  rw [repeats, occurrences_append, ← repeats, ← repeats, repeats_cons, List.append_nil]
  simp only [List.mem_reverse]
  rfl

/-- Only the set of the keys that were seen matters. -/
theorem occurrences_congr (again : Bool) {seen seen' : List κ} (h : ∀ k, k ∈ seen ↔ k ∈ seen')
    (xs : List α) : occurrences again key seen xs = occurrences again key seen' xs := by
  induction xs generalizing seen seen' with
  | nil => rfl
  | cons x xs ih =>
    have hcons : ∀ k, k ∈ key x :: seen ↔ k ∈ key x :: seen' := fun k => by
      rw [List.mem_cons, List.mem_cons, h]
    rw [occurrences, occurrences, ih hcons]
    simp only [h]

/-! ## Keys -/

/-- The keys of the first occurrences are the new keys. -/
theorem mem_map_firsts {seen : List κ} {xs : List α} {k : κ} :
    k ∈ (firsts key seen xs).map key ↔ k ∈ xs.map key ∧ k ∉ seen := by
  induction xs generalizing seen with
  | nil => simp [occurrences]
  | cons x xs ih =>
    rw [firsts_cons]
    by_cases hx : key x ∈ seen
    · rw [if_pos hx, ih, List.map_cons, List.mem_cons, List.mem_cons]
      constructor
      · exact fun ⟨hk, hnew⟩ => ⟨.inr hk, fun hseen => hnew (.inr hseen)⟩
      · rintro ⟨rfl | hk, hnew⟩
        · exact absurd hx hnew
        · exact ⟨hk, fun h => h.elim (fun heq => hnew (heq ▸ hx)) hnew⟩
    · rw [if_neg hx, List.map_cons, List.mem_cons, ih, List.map_cons, List.mem_cons, List.mem_cons]
      by_cases hk : k = key x
      · simp [hk, hx]
      · simp [hk]

/-- First occurrences have different keys. -/
theorem nodup_map_firsts (key : α → κ) (seen : List κ) (xs : List α) :
    ((firsts key seen xs).map key).Nodup := by
  induction xs generalizing seen with
  | nil => exact List.nodup_nil
  | cons x xs ih =>
    rw [firsts_cons]
    by_cases hx : key x ∈ seen
    · rw [if_pos hx]
      exact ih _
    · rw [if_neg hx, List.map_cons, List.nodup_cons]
      refine ⟨fun hmem => ?_, ih _⟩
      exact (mem_map_firsts.mp hmem).2 (by simp)

/-- The key of a repeat came up before. -/
theorem key_mem_map_firsts {xs : List α} {x : α} (h : x ∈ repeats key [] xs) :
    key x ∈ (firsts key [] xs).map key :=
  mem_map_firsts.mpr ⟨List.mem_map_of_mem ((occurrences_sublist true [] xs).subset h), by simp⟩

/-! ## A set of the keys -/

/-- The set `seen` has the keys of `xs`. -/
def HasKeys {cmp : κ → κ → Ordering} [Std.TransCmp cmp] (key : α → κ) (seen : Std.ExtTreeSet κ cmp)
    (xs : List α) : Prop :=
  ∀ k, k ∈ seen ↔ k ∈ xs.map key

namespace HasKeys
variable {cmp : κ → κ → Ordering} [Std.TransCmp cmp] {seen : Std.ExtTreeSet κ cmp}
    {xs : List α} {x : α}
  (h : HasKeys key seen xs)
include h

omit [DecidableEq κ] in
/-- An element with a known key. -/
theorem concat_seen (hx : key x ∈ seen) : HasKeys key seen (xs ++ [x]) := by
  intro k
  rw [List.map_append, List.mem_append, ← h k]
  refine ⟨.inl, fun hk => hk.elim id fun hk => ?_⟩
  rw [List.map_singleton, List.mem_singleton] at hk
  exact hk ▸ hx

omit [DecidableEq κ] in
/-- An element whose key is noted. -/
theorem concat_insert [Std.LawfulEqCmp cmp] (x : α) :
    HasKeys key (seen.insert (key x)) (xs ++ [x]) := by
  intro k
  rw [List.map_append, List.mem_append, ← h k, Std.ExtTreeSet.mem_insert,
    Std.LawfulEqCmp.compare_eq_iff_eq, List.map_singleton, List.mem_singleton, or_comm]
  exact or_congr_right eq_comm

theorem firsts_concat_seen (hx : key x ∈ seen) : firsts key [] (xs ++ [x]) = firsts key [] xs := by
  rw [firsts_concat, if_pos ((h _).mp hx), List.append_nil]

theorem firsts_concat_new (hx : key x ∉ seen) :
    firsts key [] (xs ++ [x]) = firsts key [] xs ++ [x] := by
  rw [firsts_concat, if_neg ((h _).not.mp hx)]

theorem repeats_concat_seen (hx : key x ∈ seen) :
    repeats key [] (xs ++ [x]) = repeats key [] xs ++ [x] := by
  rw [repeats_concat, if_pos ((h _).mp hx)]

theorem repeats_concat_new (hx : key x ∉ seen) :
    repeats key [] (xs ++ [x]) = repeats key [] xs := by
  rw [repeats_concat, if_neg ((h _).not.mp hx), List.append_nil]

end HasKeys

/-! ## Composing -/

/-- Elements that were dropped for keys seen here would be dropped later. -/
theorem firsts_firsts {seen seen' : List κ} (h : seen' ⊆ seen) (xs : List α) :
    firsts key seen (firsts key seen' xs) = firsts key seen xs := by
  induction xs generalizing seen seen' with
  | nil => rfl
  | cons x xs ih =>
    rw [firsts_cons seen', firsts_cons seen]
    by_cases hx : key x ∈ seen
    · -- the key of `x` was seen already, so noting it again changes nothing
      have hsame : ∀ ys : List α, firsts key (key x :: seen) ys = firsts key seen ys :=
        occurrences_congr false fun k => by
          rw [List.mem_cons]
          exact ⟨fun hk => hk.elim (fun heq => heq ▸ hx) id, .inr⟩
      have hrest := ih (List.cons_subset.mpr ⟨hx, h⟩)
      rw [if_pos hx, hsame]
      by_cases hx' : key x ∈ seen'
      · rw [if_pos hx', hrest]
      · rw [if_neg hx', firsts_cons, if_pos hx, hsame, hrest]
    · have hrest := ih (List.cons_subset_cons (key x) h)
      rw [if_neg hx, if_neg fun hx' => hx (h hx'), firsts_cons, if_neg hx, hrest]

/-- **First occurrences list by list, then among what is left, are the first
occurrences of all lists together.** -/
theorem firsts_flatMap_firsts (seen : List κ) (xss : List (List α)) :
    firsts key seen (xss.flatMap (firsts key [])) = firsts key seen xss.flatten := by
  induction xss generalizing seen with
  | nil => rfl
  | cons xs xss ih =>
    rw [List.flatMap_cons, List.flatten_cons, firsts_append, firsts_append, ih,
      firsts_firsts (List.nil_subset _)]
    congr 1
    refine occurrences_congr false (fun k => ?_) _
    rw [List.mem_append, List.mem_append, List.mem_reverse, List.mem_reverse, mem_map_firsts]
    simp

/-- Occurrences among images. -/
theorem occurrences_map (again : Bool) {key' : β → κ} {f : α → β} (seen : List κ) (xs : List α) :
    occurrences again key' seen (xs.map f) = (occurrences again (key' ∘ f) seen xs).map f := by
  induction xs generalizing seen with
  | nil => rfl
  | cons x xs ih =>
    simp only [List.map_cons, occurrences, Function.comp_apply, ih]
    split <;> rfl

end PacketGuard.Lib
