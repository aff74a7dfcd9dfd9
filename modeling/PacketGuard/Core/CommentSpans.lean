import PacketGuard.Core.Comments

/-! # Where comments start

A quote is a `"` or a `'`, unless it is right behind a backslash.  It opens a span
that the next quote of its kind closes, and within a span nothing starts a
comment.  `remove_comment` keeps a text exactly when every `#` and every `//` in
it stands in such a span.
-/
namespace PacketGuard.Core

/-- The two tests for a comment. -/
def startsComment (c : Char) (rest : Str) : Bool := c == '#' || (c == '/' && rest.head? == some '/')

/-- Behind this text the character is a quote. -/
def IsQuote (before : Str) (c : Char) : Prop := (c = '"' ∨ c = '\'') ∧ before.getLast? ≠ some '\\'

/-- Behind this text no span is open. -/
inductive Unquoted : Str → Prop
  | nil : Unquoted []
  | char {text : Str} {c : Char} : Unquoted text → ¬ IsQuote text c → Unquoted (text ++ [c])
  | span {text inner : Str} {q : Char} : Unquoted text → IsQuote text q →
      (∀ a b, inner = a ++ q :: b → ¬ IsQuote (text ++ q :: a) q) → IsQuote (text ++ q :: inner) q →
      Unquoted (text ++ q :: (inner ++ [q]))

/-! ## The open quote -/

/-- The open quote behind a text, if there is one. -/
def quoteAfter (quote prev : Option Char) : Str → Option Char
  | [] => quote
  | c :: rest => quoteAfter (quoteStep quote prev c) (some c) rest

theorem quoteAfter_concat (quote prev : Option Char) (text : Str) (c : Char) :
    quoteAfter quote prev (text ++ [c]) =
      quoteStep (quoteAfter quote prev text) (text.getLast?.or prev) c := by
  induction text generalizing quote prev with
  | nil => rfl
  | cons d text ih =>
    rw [List.cons_append, quoteAfter, quoteAfter, ih, List.getLast?_cons]
    congr 1
    cases text.getLast? <;> rfl

/-- Outside spans a quote opens one, -/
theorem quoteStep_none (before : Str) (c : Char) :
    (IsQuote before c → quoteStep none before.getLast? c = some c) ∧
      (¬ IsQuote before c → quoteStep none before.getLast? c = none) := by
  unfold quoteStep IsQuote
  constructor
  · intro h
    rw [if_pos (by simpa using h)]
  · intro h
    rw [if_neg (by simpa using h)]

/-- and within a span only the quote that opened it does anything. -/
theorem quoteStep_some (before : Str) (q c : Char) :
    (IsQuote before c ∧ q = c → quoteStep (some q) before.getLast? c = none) ∧
      (¬ (IsQuote before c ∧ q = c) → quoteStep (some q) before.getLast? c = some q) := by
  unfold quoteStep IsQuote
  constructor
  · rintro ⟨h, rfl⟩
    rw [if_pos (by simpa using h)]
    simp
  · intro h
    by_cases hquote : (c = '"' ∨ c = '\'') ∧ before.getLast? ≠ some '\\'
    · have hne : q ≠ c := fun heq => h ⟨hquote, heq⟩
      rw [if_pos (by simpa using hquote)]
      simp [hne]
    · rw [if_neg (by simpa using hquote)]

/-- In the text a span is open. -/
structure OpenSpan (q : Char) (text before inner : Str) : Prop where
  eq : text = before ++ q :: inner
  outside : Unquoted before
  opens : IsQuote before q
  inner : ∀ a b, inner = a ++ q :: b → ¬ IsQuote (before ++ q :: a) q

theorem OpenSpan.concat {q c : Char} {text before inner : Str} (h : OpenSpan q text before inner)
    (hc : ¬ (IsQuote text c ∧ q = c)) : OpenSpan q (text ++ [c]) before (inner ++ [c]) := by
  refine ⟨by rw [h.eq, List.append_assoc, List.cons_append], h.outside, h.opens, fun a b heq => ?_⟩
  rcases List.eq_nil_or_concat b with rfl | ⟨b, d, rfl⟩
  · -- the quote is the new character
    obtain ⟨rfl, hlast⟩ := List.append_inj' heq rfl
    cases hlast
    rw [← h.eq]
    exact fun hquote => hc ⟨hquote, rfl⟩
  · rw [List.concat_eq_append, ← List.cons_append, ← List.append_assoc] at heq
    exact h.inner a b (List.append_inj' heq rfl).1

/-- What the open quote says of a text. -/
theorem unquoted_or_openSpan (text : Str) :
    (quoteAfter none none text = none → Unquoted text) ∧
      ∀ q, quoteAfter none none text = some q → ∃ before inner, OpenSpan q text before inner := by
  induction text using List.reverseRecOn with
  | nil => exact ⟨fun _ => .nil, nofun⟩
  | append_singleton text c ih =>
    rw [quoteAfter_concat, Option.or_none]
    cases hquote : quoteAfter none none text with
    | none =>
      have htext := ih.1 hquote
      by_cases hopens : IsQuote text c
      · rw [(quoteStep_none text c).1 hopens]
        refine ⟨nofun, fun q hq => ?_⟩
        cases hq
        exact ⟨text, [], rfl, htext, hopens, fun a b heq => by simp at heq⟩
      · rw [(quoteStep_none text c).2 hopens]
        exact ⟨fun _ => .char htext hopens, nofun⟩
    | some q =>
      obtain ⟨before, inner, hspan⟩ := ih.2 q hquote
      by_cases hcloses : IsQuote text c ∧ q = c
      · rw [(quoteStep_some text q c).1 hcloses]
        obtain ⟨hcloses, rfl⟩ := hcloses
        refine ⟨fun _ => ?_, nofun⟩
        rw [hspan.eq] at hcloses ⊢
        rw [List.append_assoc, List.cons_append]
        exact .span hspan.outside hspan.opens hspan.inner hcloses
      · rw [(quoteStep_some text q c).2 hcloses]
        refine ⟨nofun, fun q' hq => ?_⟩
        cases hq
        exact ⟨before, inner ++ [c], hspan.concat hcloses⟩

/-- A span stays open up to the quote that closes it. -/
theorem quoteAfter_openSpan {q : Char} {before inner : Str}
    (hbefore : quoteAfter none none before = none)
    (hopens : IsQuote before q)
    (hinner : ∀ a b, inner = a ++ q :: b → ¬ IsQuote (before ++ q :: a) q) :
    quoteAfter none none (before ++ q :: inner) = some q := by
  induction inner using List.reverseRecOn with
  | nil =>
    rw [quoteAfter_concat, hbefore, Option.or_none]
    exact (quoteStep_none before q).1 hopens
  | append_singleton inner c ih =>
    have hstill := ih fun a b heq => hinner a (b ++ [c]) (by rw [heq]; simp)
    rw [← List.cons_append, ← List.append_assoc, quoteAfter_concat, hstill, Option.or_none]
    refine (quoteStep_some _ q c).2 ?_
    rintro ⟨hquote, rfl⟩
    exact hinner inner [] rfl hquote

theorem quoteAfter_eq_none_iff {text : Str} : quoteAfter none none text = none ↔ Unquoted text := by
  refine ⟨(unquoted_or_openSpan text).1, fun h => ?_⟩
  induction h with
  | nil => rfl
  | @char text c _ hc ih =>
    rw [quoteAfter_concat, ih, Option.or_none]
    exact (quoteStep_none text c).2 hc
  | @span text inner q _ hopens hinner hcloses ih =>
    have hstill := quoteAfter_openSpan ih hopens hinner
    rw [← List.cons_append, ← List.append_assoc, quoteAfter_concat, hstill, Option.or_none]
    exact (quoteStep_some _ q q).1 ⟨hcloses, rfl⟩

/-! ## Kept texts -/

theorem quoteStep_of_startsComment {c : Char} {rest : Str} (h : startsComment c rest = true)
    (quote prev : Option Char) : quoteStep quote prev c = quote := by
  have hc : c = '#' ∨ c = '/' := by
    simp only [startsComment, Bool.or_eq_true, Bool.and_eq_true, beq_iff_eq] at h
    exact h.imp_right And.left
  rcases hc with rfl | rfl <;> rfl

/-- One turn of the loop of `remove_comment`. -/
theorem removeCommentFrom_cons (quote prev : Option Char) (c : Char) (rest : Str) :
    removeCommentFrom quote prev (c :: rest) =
      if quote = none ∧ startsComment c rest = true then []
      else c :: removeCommentFrom (quoteStep quote prev c) (some c) rest := by
  rw [removeCommentFrom]
  by_cases hstarts : startsComment c rest = true
  · rw [quoteStep_of_startsComment hstarts]
    simp only [startsComment, Bool.or_eq_true, Bool.and_eq_true, beq_iff_eq] at hstarts
    rcases hstarts with rfl | ⟨rfl, hslash⟩
    · simp [startsComment]
    · simp [startsComment, hslash]
  · rw [if_neg fun hcut : quote = none ∧ startsComment c rest = true => hstarts hcut.2]
    simp only [startsComment, Bool.or_eq_true, Bool.and_eq_true, beq_iff_eq, not_or] at hstarts
    obtain ⟨hhash, hslash⟩ := hstarts
    rw [if_neg (by simp [hhash]), if_neg (by simpa [and_assoc] using fun _ => not_and.mp hslash)]

/-- A text is kept when no comment starts in it with no quote open. -/
theorem removeCommentFrom_eq_self_iff {quote prev : Option Char} {text : Str} :
    removeCommentFrom quote prev text = text ↔
      ∀ before c after, text = before ++ c :: after → startsComment c after = true →
        quoteAfter quote prev before ≠ none := by
  induction text generalizing quote prev with
  | nil => exact iff_of_true rfl fun before c after h => by simp at h
  | cons d rest ih =>
    rw [removeCommentFrom_cons]
    constructor
    · intro h before c after heq hstarts
      by_cases hcut : quote = none ∧ startsComment d rest = true
      · rw [if_pos hcut] at h
        cases h
      · rw [if_neg hcut] at h
        cases before with
        | nil =>
          cases heq
          exact fun hquote => hcut ⟨hquote, hstarts⟩
        | cons e before =>
          cases heq
          exact ih.mp (List.cons.inj h).2 before c after rfl hstarts
    · intro h
      rw [if_neg fun hcut => h [] d rest rfl hcut.2 hcut.1]
      rw [ih.mpr fun before c after heq => h (d :: before) c after (by rw [heq]; rfl)]

/-- **Where comments start**: a text is kept exactly when no `#` and no `//` stands
outside spans. -/
theorem removeComment_eq_self_iff {text : Str} :
    removeComment text = text ↔
      ∀ before c after, text = before ++ c :: after → startsComment c after = true →
        ¬ Unquoted before := by
  simp only [removeComment, removeCommentFrom_eq_self_iff, ← quoteAfter_eq_none_iff, ne_eq]

/-- No comment starts in a line of tokens when none starts in a token. -/
theorem removeComment_joined {tokens : List Str}
    (h : ∀ t ∈ tokens, '#' ∉ t ∧ ¬ "//".toList <:+: t) :
    removeComment ([' '].intercalate tokens) = [' '].intercalate tokens := by
  have hnone : ∀ needle : Str, ' ' ∉ needle → needle ≠ [] → (∀ t ∈ tokens, ¬ needle <:+: t) →
      ¬ needle <:+: [' '].intercalate tokens := by
    intro needle hblank hne htokens hin
    obtain ⟨t, ht, hin⟩ := infix_intercalate hblank hne hin
    exact htokens t ht hin
  rw [removeComment_eq_self_iff]
  intro before c after heq hstarts
  simp only [startsComment, Bool.or_eq_true, Bool.and_eq_true, beq_iff_eq] at hstarts
  exfalso
  rcases hstarts with rfl | ⟨rfl, hslash⟩
  · refine hnone ['#'] (by decide) (List.cons_ne_nil _ _) ?_ ⟨before, after, by simp [heq]⟩
    exact fun t ht hin => (h t ht).1 (hin.subset List.mem_cons_self)
  · obtain ⟨tail, rfl⟩ := List.head?_eq_some_iff.mp hslash
    exact hnone "//".toList (by decide) (List.cons_ne_nil _ _) (fun t ht => (h t ht).2)
      ⟨before, tail, by simp [heq]⟩

end PacketGuard.Core
