import PacketGuard.Lib.Earlier

/-! # Lists that decide by their first match

A list of rules answers a question by the first of them that applies.  A rule is
masked when an earlier one applies to every question that it applies to.  All
masked rules can be left out at once: the first rule that applies is not masked.
-/
namespace PacketGuard.Lib

variable {ρ Q : Type}

/-- Whatever the rule applies to, an earlier one applies to. -/
def Masked (applies : Q → ρ → Bool) (earlier : List ρ) (r : ρ) : Prop :=
  ∀ q, applies q r = true → ∃ e ∈ earlier, applies q e = true

/-- The rules that are not left out, each judged by the rules before it. -/
def leaveOut (out : List ρ → ρ → Bool) (rules : List ρ) : List ρ :=
  ((withEarlier [] rules).filter fun p => !out p.1 p.2).map Prod.snd

/-- **Leaving out masked rules** changes no first match. -/
theorem find?_leaveOut {applies : Q → ρ → Bool} {out : List ρ → ρ → Bool} {rules : List ρ}
    (h : ∀ first r later, rules = first ++ r :: later → out first r = true → Masked applies first r)
    (q : Q) :
    (leaveOut out rules).find? (applies q) = rules.find? (applies q) := by
  -- behind rules that do not apply, up to the first one that does
  have hloop : ∀ items before : List ρ, (∀ e ∈ before, applies q e = false) →
      (∀ p ∈ withEarlier before items, out p.1 p.2 = true → Masked applies p.1 p.2) →
      (((withEarlier before items).filter fun p => !out p.1 p.2).map Prod.snd).find? (applies q) =
        items.find? (applies q) := by
    intro items
    induction items with
    | nil => exact fun before _ _ => rfl
    | cons a rest ih =>
      intro before hbefore hmasked
      rw [withEarlier] at hmasked ⊢
      obtain ⟨hhere, hrest⟩ := List.forall_mem_cons.mp hmasked
      cases ha : applies q a with
      | true =>
        have hkept : out before a = false := by
          rw [Bool.eq_false_iff]
          intro hout
          obtain ⟨e, he, happlies⟩ := hhere hout q ha
          rw [hbefore e he] at happlies
          cases happlies
        rw [List.filter_cons_of_pos (by simp [hkept]), List.map_cons, List.find?_cons_of_pos ha,
          List.find?_cons_of_pos ha]
      | false =>
        have hnext := ih (before ++ [a]) (fun e he => ?_) hrest
        · rw [List.find?_cons_of_neg (by simp [ha]), ← hnext, List.filter_cons]
          split
          · rw [List.map_cons, List.find?_cons_of_neg (by simp [ha])]
          · rfl
        · rcases List.mem_append.mp he with he | he
          · exact hbefore e he
          · rw [List.mem_singleton.mp he]
            exact ha
  refine hloop rules [] (fun e he => absurd he List.not_mem_nil) fun p hp => ?_
  obtain ⟨first, later, heq, hrules⟩ := mem_withEarlier.mp hp
  rw [List.nil_append] at heq
  rw [heq]
  exact h first p.2 later hrules

end PacketGuard.Lib
