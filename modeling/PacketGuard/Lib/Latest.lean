import Mathlib

/-! The latest element of a list under a measure: a greatest one, and the last of
these, found by one pass that lets an element replace one that is not greater. -/
namespace PacketGuard.Lib

variable {α : Type}

/-- The better of the latest element so far and the next one. -/
def laterOf (measure : α → Nat) (latest : Option α) (x : α) : Option α :=
  match latest with
  | none => some x
  | some y => if measure y ≤ measure x then some x else some y

def latestBy (measure : α → Nat) (xs : List α) : Option α := xs.foldl (laterOf measure) none

/-- `x` is a greatest element of the list, and the last one. -/
def IsLatest (measure : α → Nat) (x : α) (xs : List α) : Prop :=
  ∃ front back, xs = front ++ x :: back ∧ (∀ y ∈ front, measure y ≤ measure x) ∧
    ∀ y ∈ back, measure y < measure x

variable {measure : α → Nat}

theorem latestBy_concat (xs : List α) (x : α) :
    latestBy measure (xs ++ [x]) = laterOf measure (latestBy measure xs) x := by
  simp [latestBy]

theorem latestBy_eq_none {xs : List α} : latestBy measure xs = none ↔ xs = [] := by
  cases xs using List.reverseRecOn with
  | nil => simp [latestBy]
  | append_singleton xs x =>
    rw [latestBy_concat]
    unfold laterOf
    cases latestBy measure xs with
    | none => simp
    | some y => by_cases h : measure y ≤ measure x <;> simp [h]

/-- The element of a list that is found is the latest one of the list. -/
theorem isLatest_of_latestBy {xs : List α} {x : α} (h : latestBy measure xs = some x) :
    IsLatest measure x xs := by
  induction xs using List.reverseRecOn generalizing x with
  | nil => cases h
  | append_singleton xs z ih =>
    rw [latestBy_concat] at h
    cases hlatest : latestBy measure xs with
    | none =>
      rw [hlatest] at h
      cases h
      rw [latestBy_eq_none.mp hlatest]
      exact ⟨[], [], rfl, nofun, nofun⟩
    | some y =>
      rw [hlatest] at h
      obtain ⟨front, back, rfl, hfront, hback⟩ := ih hlatest
      simp only [laterOf] at h
      split at h
      · -- the new element is at least as great as all before it
        rename_i hle
        cases h
        refine ⟨front ++ y :: back, [], rfl, fun w hw => ?_, nofun⟩
        rcases List.mem_append.mp hw with hw | hw
        · exact (hfront w hw).trans hle
        · rcases List.mem_cons.mp hw with rfl | hw
          · exact hle
          · exact (hback w hw).le.trans hle
      · rename_i hlt
        cases h
        refine ⟨front, back ++ [z], by simp, hfront, fun w hw => ?_⟩
        rcases List.mem_append.mp hw with hw | hw
        · exact hback w hw
        · rw [List.mem_singleton.mp hw]
          omega

/-- The measure of what is found is the greatest one. -/
theorem map_latestBy (measure : α → Nat) (xs : List α) :
    (latestBy measure xs).map measure = (xs.map measure).max? := by
  cases hlatest : latestBy measure xs with
  | none =>
    rw [latestBy_eq_none.mp hlatest]
    rfl
  | some x =>
    obtain ⟨front, back, rfl, hfront, hback⟩ := isLatest_of_latestBy hlatest
    have hgreatest : ∀ y ∈ front ++ x :: back, measure y ≤ measure x := by
      intro y hy
      rcases List.mem_append.mp hy with hy | hy
      · exact hfront y hy
      · rcases List.mem_cons.mp hy with rfl | hy
        · exact le_rfl
        · exact (hback y hy).le
    rw [Option.map_some, eq_comm, List.max?_eq_some_iff]
    refine ⟨List.mem_map_of_mem (List.mem_append_right _ List.mem_cons_self), fun n hn => ?_⟩
    obtain ⟨y, hy, rfl⟩ := List.mem_map.mp hn
    exact hgreatest y hy

theorem IsLatest.unique {xs : List α} {x y : α} (hx : IsLatest measure x xs)
    (hy : IsLatest measure y xs) : x = y := by
  obtain ⟨front, back, rfl, hfront, hback⟩ := hx
  obtain ⟨front', back', heq, hfront', hback'⟩ := hy
  -- an element in front of the other cannot be behind it as well
  rcases List.append_eq_append_iff.mp heq with ⟨mid, rfl, hmid⟩ | ⟨mid, rfl, hmid⟩
  · cases mid with
    | nil => exact (List.cons.inj hmid).1
    | cons z mid =>
      obtain ⟨rfl, rfl⟩ := List.cons.inj hmid
      have hle := hfront' x (by simp)
      have hlt := hback y (by simp)
      omega
  · cases mid with
    | nil => exact (List.cons.inj hmid).1.symm
    | cons z mid =>
      obtain ⟨rfl, rfl⟩ := List.cons.inj hmid
      have hle := hfront y (by simp)
      have hlt := hback' x (by simp)
      omega

/-- **What the pass finds.** -/
theorem latestBy_eq_some {xs : List α} {x : α} :
    latestBy measure xs = some x ↔ IsLatest measure x xs := by
  refine ⟨isLatest_of_latestBy, fun h => ?_⟩
  cases hlatest : latestBy measure xs with
  | none =>
    obtain ⟨front, back, hxs, -⟩ := h
    rw [latestBy_eq_none.mp hlatest] at hxs
    simp at hxs
  | some y => rw [(isLatest_of_latestBy hlatest).unique h]

/-- The latest element among those with a property, as a place in the whole list. -/
theorem isLatest_filter {p : α → Bool} {xs : List α} {x : α} :
    IsLatest measure x (xs.filter p) ↔
      ∃ front back, xs = front ++ x :: back ∧ p x = true ∧
        (∀ y ∈ front, p y = true → measure y ≤ measure x) ∧
        ∀ y ∈ back, p y = true → measure y < measure x := by
  constructor
  · rintro ⟨front, back, hxs, hfront, hback⟩
    obtain ⟨before, rest, rfl, hbefore, hrest⟩ := List.filter_eq_append_iff.mp hxs
    obtain ⟨skipped, back', rfl, hskipped, hx, hback'⟩ := List.filter_eq_cons_iff.mp hrest
    refine ⟨before ++ skipped, back', by simp, hx, fun y hy hpy => ?_, fun y hy hpy => ?_⟩
    · rcases List.mem_append.mp hy with hy | hy
      · exact hfront y (hbefore ▸ List.mem_filter.mpr ⟨hy, hpy⟩)
      · exact absurd hpy (hskipped y hy)
    · exact hback y (hback' ▸ List.mem_filter.mpr ⟨hy, hpy⟩)
  · rintro ⟨front, back, rfl, hx, hfront, hback⟩
    refine ⟨front.filter p, back.filter p, by simp [hx], fun y hy => ?_, fun y hy => ?_⟩
    · obtain ⟨hy, hpy⟩ := List.mem_filter.mp hy
      exact hfront y hy hpy
    · obtain ⟨hy, hpy⟩ := List.mem_filter.mp hy
      exact hback y hy hpy

end PacketGuard.Lib
