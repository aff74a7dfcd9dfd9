import Mathlib

/-! Outcomes of computations that can fail: one predicate for the result and one
for the error, with a rule for each way to put computations together. -/
namespace PacketGuard.Lib

variable {α β Err : Type}

/-- The result, if there is one, satisfies `Q`, and the error, if there is one, `P`. -/
def Outcome (Q : α → Prop) (P : Err → Prop) : Except Err α → Prop
  | .ok a => Q a
  | .error e => P e

namespace Outcome
variable {Q Q' : α → Prop} {R : β → Prop} {P : Err → Prop} {x : Except Err α}

theorem of_eq_ok (h : Outcome Q P x) {a : α} (hx : x = .ok a) : Q a := by
  subst hx
  exact h

theorem of_eq_error (h : Outcome Q P x) {e : Err} (hx : x = .error e) : P e := by
  subst hx
  exact h

theorem imp (h : Outcome Q P x) (hq : ∀ a, Q a → Q' a) {P' : Err → Prop} (hp : ∀ e, P e → P' e) :
    Outcome Q' P' x := by
  cases x with
  | error e => exact hp e h
  | ok a => exact hq a h

/-- A computation is characterised by its result, and by how it fails. -/
theorem self (h : ∀ e, x = .error e → P e) : Outcome (fun a => x = .ok a) P x := by
  cases x with
  | error e => exact h e rfl
  | ok a => exact rfl

theorem ite {c : Prop} [Decidable c] {y : Except Err α} (hx : c → Outcome Q P x)
    (hy : ¬c → Outcome Q P y) : Outcome Q P (if c then x else y) := by
  by_cases h : c
  · rw [if_pos h]
    exact hx h
  · rw [if_neg h]
    exact hy h

theorem map (h : Outcome Q P x) {f : α → β} (hf : ∀ a, Q a → R (f a)) : Outcome R P (x.map f) := by
  cases x with
  | error e => exact h
  | ok a => exact hf a h

theorem bind (h : Outcome Q P x) {f : α → Except Err β} (hf : ∀ a, Q a → Outcome R P (f a)) :
    Outcome R P (x.bind f) := by
  cases x with
  | error e => exact h
  | ok a => exact hf a h

/-- A list, element by element. -/
theorem mapM {f : β → Except Err α} (hf : ∀ x, Outcome Q P (f x)) (items : List β) :
    Outcome (fun ys => ∀ y ∈ ys, Q y) P (items.mapM f) := by
  induction items with
  | nil => exact fun y hy => absurd hy List.not_mem_nil
  | cons x items ih =>
    rw [List.mapM_cons]
    refine (hf x).bind fun y hy => ih.bind fun ys hys => ?_
    intro z hz
    rcases List.mem_cons.mp hz with rfl | hz
    · exact hy
    · exact hys z hz

end Outcome

/-- Two computations one after the other, both of them successful. -/
theorem bind_eq_ok {x : Except Err α} {f : α → Except Err β} {y : β} (h : x >>= f = .ok y) :
    ∃ a, x = .ok a ∧ f a = .ok y := by
  cases x with
  | error e => cases h
  | ok a => exact ⟨a, rfl, h⟩

/-- A list that was computed was computed element by element. -/
theorem forall₂_of_mapM_eq_ok {f : β → Except Err α} {items : List β} {results : List α}
    (h : items.mapM f = .ok results) : List.Forall₂ (fun x y => f x = .ok y) items results := by
  induction items generalizing results with
  | nil =>
    cases h
    exact .nil
  | cons x items ih =>
    rw [List.mapM_cons] at h
    cases hx : f x with
    | error e =>
      rw [hx] at h
      cases h
    | ok y =>
      cases hitems : items.mapM f with
      | error e =>
        rw [hx, hitems] at h
        cases h
      | ok ys =>
        rw [hx, hitems] at h
        cases h
        exact .cons hx (ih hitems)

/-- The results of a list that was computed. -/
theorem mem_of_mapM_eq_ok {f : β → Except Err α} {items : List β} {results : List α}
    (h : items.mapM f = .ok results) {y : α} : y ∈ results ↔ ∃ x ∈ items, f x = .ok y := by
  have hall := forall₂_of_mapM_eq_ok h
  induction hall with
  | nil => simp
  | cons hx _ ih =>
    rw [List.mapM_cons] at h
    simp only [List.mem_cons, exists_eq_or_imp, hx, Except.ok.injEq]
    rw [eq_comm]
    exact or_congr_right (ih (by
      obtain ⟨a, -, h⟩ := bind_eq_ok h
      obtain ⟨as, has, h⟩ := bind_eq_ok h
      cases h
      exact has))

/-- A list is computed when each element is. -/
theorem exists_mapM_eq_ok_iff {f : β → Except Err α} {items : List β} :
    (∃ results, items.mapM f = .ok results) ↔ ∀ x ∈ items, ∃ y, f x = .ok y := by
  constructor
  · rintro ⟨results, h⟩ x hx
    obtain ⟨i, hi⟩ := List.getElem?_of_mem hx
    have hall := forall₂_of_mapM_eq_ok h
    have hlt := (List.getElem?_eq_some_iff.mp hi).1
    refine ⟨results.get ⟨i, hall.length_eq ▸ hlt⟩, ?_⟩
    have hget := hall.get hlt (hall.length_eq ▸ hlt)
    rwa [List.get_eq_getElem, (List.getElem?_eq_some_iff.mp hi).2] at hget
  · intro h
    induction items with
    | nil => exact ⟨[], rfl⟩
    | cons x items ih =>
      obtain ⟨⟨y, hy⟩, hitems⟩ := List.forall_mem_cons.mp h
      obtain ⟨ys, hys⟩ := ih hitems
      exact ⟨y :: ys, by rw [List.mapM_cons, hy, hys]; rfl⟩

end PacketGuard.Lib
