import Mathlib.Logic.Relation

/-! Following links.  A place shows something and may lead to another place; a
trail is what is seen from a place on, until a place leads nowhere. -/
namespace PacketGuard.Lib
open Relation

variable {α β : Type}

/-- `Trail link start seen`: from `start` on, `seen` is met, and then the links end. -/
inductive Trail (link : α → β → Option α → Prop) : Option α → List β → Prop
  | stop : Trail link none []
  | hop {a : α} {b : β} {next : Option α} {seen : List β} :
    link a b next → Trail link next seen → Trail link (some a) (b :: seen)

/-- A place leads to another. -/
def Leads (link : α → β → Option α → Prop) (a c : α) : Prop := ∃ b, link a b (some c)

/-- A place shows one thing and leads to one place at most. -/
def Unforked (link : α → β → Option α → Prop) : Prop :=
  ∀ a b b' next next', link a b next → link a b' next' → b = b' ∧ next = next'

section
variable {link : α → β → Option α → Prop} (hlink : Unforked link)
include hlink

theorem Trail.unique {start : Option α} {seen seen' : List β} (h : Trail link start seen)
    (h' : Trail link start seen') : seen = seen' := by
  induction h generalizing seen' with
  | stop =>
    cases h'
    rfl
  | hop hstep _ ih =>
    cases h' with
    | hop hstep' htail' =>
      obtain ⟨rfl, rfl⟩ := hlink _ _ _ _ _ hstep hstep'
      rw [ih htail']

/-- Where the links lead, the trail goes on. -/
theorem Trail.of_leads {a c : α} {seen : List β} (hreach : ReflTransGen (Leads link) a c)
    (h : Trail link (some a) seen) : ∃ seen', Trail link (some c) seen' := by
  induction hreach with
  | refl => exact ⟨seen, h⟩
  | tail _ hstep ih =>
    obtain ⟨_, hseen⟩ := ih
    obtain ⟨b, hb⟩ := hstep
    cases hseen with
    | hop hb' htail =>
      obtain ⟨rfl, rfl⟩ := hlink _ _ _ _ _ hb hb'
      exact ⟨_, htail⟩

/-- The first place of a trail is not met again. -/
theorem Trail.not_cycle {start : Option α} {seen : List β} (h : Trail link start seen) :
    ∀ a ∈ start, ¬TransGen (Leads link) a a := by
  induction h with
  | stop => exact fun a ha => absurd ha (by simp)
  | @hop a b next seen hstep _ ih =>
    intro a' ha' hcycle
    obtain rfl := Option.mem_some_iff.mp ha'
    -- the cycle, started one link later
    obtain ⟨c, ⟨b', hb'⟩, hrest⟩ := TransGen.head'_iff.mp hcycle
    obtain ⟨-, rfl⟩ := hlink _ _ _ _ _ hstep hb'
    exact ih c rfl (TransGen.tail' hrest ⟨b, hstep⟩)

/-- **A cycle has no trail**, and neither has a place from which the links lead into one. -/
theorem not_trail_of_cycle {a c : α} (hreach : ReflTransGen (Leads link) a c)
    (hcycle : TransGen (Leads link) c c) (seen : List β) : ¬Trail link (some a) seen := by
  intro h
  obtain ⟨_, hc⟩ := Trail.of_leads hlink hreach h
  exact hc.not_cycle hlink c rfl hcycle
end

end PacketGuard.Lib
