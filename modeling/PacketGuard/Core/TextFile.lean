import PacketGuard.Core.Comments

/-! # Text files

A text file is written line by line, and every line ends with a newline.  Reading
it gives the lines back.
-/
namespace PacketGuard.Core

/-- The text of a file with the given lines. -/
def textOf (lines : List Str) : Str := lines.flatMap (· ++ ['\n'])

theorem textOf_eq_intercalate (lines : List Str) :
    textOf lines = ['\n'].intercalate (lines ++ [[]]) := by
  induction lines with
  | nil => rfl
  | cons line lines ih =>
    have htail : ['\n'].intercalate (line :: (lines ++ [[]])) = line ++ '\n' :: ['\n'].intercalate
        (lines ++ [[]]) := by
      cases lines <;> simp [List.intercalate_cons_cons]
    rw [List.cons_append, htail, ← ih, textOf, List.flatMap_cons, List.append_assoc]
    rfl

/-- **The lines of a file are read back.** -/
theorem getlines_textOf {lines : List Str} (h : ∀ line ∈ lines, '\n' ∉ line) :
    getlines '\n' (textOf lines) = lines := by
  have hpieces : ∀ piece ∈ lines ++ [[]], '\n' ∉ piece := by
    intro piece hpiece
    rcases List.mem_append.mp hpiece with hpiece | hpiece
    · exact h piece hpiece
    · rw [List.mem_singleton.mp hpiece]
      exact List.not_mem_nil
  rw [getlines, textOf_eq_intercalate, List.splitOn_intercalate '\n' hpieces (by simp)]
  simp

/-! ## Ends of lines -/

/-- Neither end of the text is white space. -/
theorem trimmed_of_ends {value : Str}
    (h : (value.head?.any isSpace || value.getLast?.any isSpace) = false) :
    Trimmed value := by
  rw [Bool.or_eq_false_iff] at h
  constructor
  · intro c hc
    rw [hc] at h
    exact h.1
  · intro c hc
    rw [hc] at h
    exact h.2

/-- Trimmed pieces make a trimmed line. -/
theorem trimmed_joined {delim : Char} (hdelim : isSpace delim = false) {pieces : List Str}
    (h : ∀ p ∈ pieces, Trimmed p) : Trimmed ([delim].intercalate pieces) := by
  induction pieces with
  | nil => exact ⟨fun c hc => by simp at hc, fun c hc => by simp at hc⟩
  | cons p pieces ih =>
    cases pieces with
    | nil =>
      rw [List.intercalate_singleton]
      exact h p List.mem_cons_self
    | cons q pieces =>
      have hrest := ih fun r hr => h r (List.mem_cons_of_mem _ hr)
      have hp := h p List.mem_cons_self
      rw [List.intercalate_cons_cons, List.append_assoc, List.singleton_append]
      constructor
      · intro c hc
        cases p with
        | nil =>
          cases hc
          exact hdelim
        | cons d p => exact hp.1 c hc
      · intro c hc
        rw [List.getLast?_append, List.getLast?_cons] at hc
        cases hlast : ([delim].intercalate (q :: pieces)).getLast? with
        | none =>
          rw [hlast] at hc
          cases hc
          exact hdelim
        | some d =>
          rw [hlast] at hc
          cases hc
          exact hrest.2 d hlast

end PacketGuard.Core
