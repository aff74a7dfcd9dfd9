import PacketGuard.Core.CommentSpans
import PacketGuard.Rules.RoundTrip

/-! # Comments and the quotes of rule options

`split_option_body` and `remove_comment` read the quotes of a rule line in two
ways.  For the option lexer only `"` quotes, and a backslash takes the next
character with it; `remove_comment` also knows `'`, and looks at the character
before a quote only.  They disagree behind a `"` that follows an escaped
backslash, and behind a `'` outside double quotes.
-/
namespace PacketGuard.Rules
open PacketGuard.Core PacketGuard.Lib

/-! ## The option lexer -/

/-- `in_quote` and `escaped` after a text. -/
def optionState (text : Str) : Bool × Bool := text.foldl optionStep (false, false)

theorem optionState_concat (text : Str) (c : Char) :
    optionState (text ++ [c]) = optionStep (optionState text) c := by
  rw [optionState, List.foldl_append]
  rfl

/-- The text ends outside quotes, with every `#` and every `//` in quotes. -/
def quotesCommentsFrom (s : Bool × Bool) : Str → Bool
  | [] => !s.1
  | c :: rest => (!startsComment c rest || s.1) && quotesCommentsFrom (optionStep s c) rest

def quotesComments (body : Str) : Bool := quotesCommentsFrom (false, false) body

theorem inQuote_of_quotesCommentsFrom {s : Bool × Bool} {before after : Str} {c : Char}
    (h : quotesCommentsFrom s (before ++ c :: after) = true)
    (hstarts : startsComment c after = true) :
    (before.foldl optionStep s).1 = true := by
  induction before generalizing s with
  | nil =>
    rw [List.nil_append, quotesCommentsFrom, hstarts, Bool.and_eq_true] at h
    simpa using h.1
  | cons d before ih =>
    rw [List.cons_append, quotesCommentsFrom, Bool.and_eq_true] at h
    exact ih h.2

/-! ## Rule lines -/

/-- Neither quotes nor the start of a comment. -/
def plainHeader : Str → Bool
  | [] => true
  | c :: rest => c != '"' && c != '\'' && !startsComment c rest && plainHeader rest

def ruleLine (header body : Str) : Str := header ++ '(' :: (body ++ [')'])

theorem startsComment_append {c : Char} {rest text : Str} (h : text.head? ≠ some '/') :
    startsComment c (rest ++ text) = startsComment c rest := by
  cases rest with
  | nil => simp [startsComment, h]
  | cons d rest => rfl

/-- The header is passed over with no quote open. -/
theorem removeCommentFrom_header {header : Str} (h : plainHeader header = true) (prev : Option Char)
    (rest : Str) :
    removeCommentFrom none prev (header ++ '(' :: rest) = header ++ '(' :: removeComment rest := by
  induction header generalizing prev with
  | nil =>
    have hopen : quoteStep none prev '(' = none := rfl
    rw [List.nil_append, removeCommentFrom_cons, if_neg (by simp [startsComment]), hopen,
      removeCommentFrom_prev none (by decide) rest]
    rfl
  | cons c header ih =>
    simp only [plainHeader, Bool.and_eq_true, bne_iff_ne, Bool.not_eq_true'] at h
    obtain ⟨⟨⟨hdouble, hsingle⟩, hstarts⟩, hheader⟩ := h
    have hstep : quoteStep none prev c = none := by simp [quoteStep, hdouble, hsingle]
    have hkept : ¬ ((none : Option Char) = none ∧ startsComment c (header ++ '(' :: rest) =
        true) := by
      rw [startsComment_append (by simp), hstarts]
      rintro ⟨-, hstart⟩
      cases hstart
    rw [List.cons_append, removeCommentFrom_cons, if_neg hkept, hstep, ih hheader, List.cons_append]

/-- The closing parenthesis makes no difference. -/
theorem removeCommentFrom_close {quote prev : Option Char} {body : Str} :
    removeCommentFrom quote prev (body ++ [')']) = body ++ [')'] ↔
      removeCommentFrom quote prev body = body := by
  induction body generalizing quote prev with
  | nil => exact iff_of_true (by simp [removeCommentFrom_cons, startsComment,
    removeCommentFrom]) rfl
  | cons c body ih =>
    rw [List.cons_append, removeCommentFrom_cons, removeCommentFrom_cons,
      startsComment_append (by simp)]
    by_cases hcut : quote = none ∧ startsComment c body = true
    · rw [if_pos hcut, if_pos hcut]
      exact iff_of_false (List.cons_ne_nil _ _).symm (List.cons_ne_nil _ _).symm
    · rw [if_neg hcut, if_neg hcut, List.cons_inj_right, List.cons_inj_right, ih]

/-- A rule line is kept when its body is. -/
theorem removeComment_ruleLine {header body : Str} (h : plainHeader header = true) :
    removeComment (ruleLine header body) = ruleLine header body ↔ removeComment body = body := by
  unfold ruleLine
  rw [removeComment, removeCommentFrom_header h, List.append_cancel_left_eq, List.cons_inj_right]
  exact removeCommentFrom_close

/-- At no `#` and no `//` the option lexer is within quotes and `remove_comment` is not. -/
def LexersAgree (body : Str) : Prop :=
  ∀ before c after, body = before ++ c :: after → startsComment c after = true →
    ¬ ((optionState before).1 = true ∧ Unquoted before)

/-- The character toggles the option lexer but not `remove_comment`, or the other
way around: a `"` behind an escaped backslash, or a `'` outside double quotes. -/
def Misread (before : Str) (c : Char) : Prop :=
  (c = '"' ∧ before.getLast? = some '\\' ∧ (optionState before).2 = false) ∨
    (c = '\'' ∧ before.getLast? ≠ some '\\' ∧ (optionState before).1 = false)

/-- The quote that is open when the option lexer is within quotes or not. -/
def openQuote (inQuote : Bool) : Option Char := if inQuote then some '"' else none

/-- A character that is not misread is read alike. -/
theorem quoteStep_openQuote {before : Str} {c : Char} (hnot : ¬ Misread before c)
    (hescaped : (optionState before).2 = true → before.getLast? = some '\\') :
    quoteStep (openQuote (optionState before).1) before.getLast? c =
      openQuote (optionStep (optionState before) c).1 := by
  cases hstate : optionState before with
  | mk inQuote escaped =>
    rw [hstate] at hescaped
    simp only [Misread, hstate, not_or, not_and] at hnot
    obtain ⟨hdouble, hsingle⟩ := hnot
    by_cases hquote : IsQuote before c
    · obtain ⟨hc, hlast⟩ := hquote
      have hfree : escaped = false := by
        by_contra htrue
        exact hlast (hescaped (by simpa using htrue))
      rcases hc with rfl | rfl
      · cases inQuote <;> simp [quoteStep, openQuote, optionStep, hfree, hlast]
      · have hin : inQuote = true := by simpa using hsingle rfl hlast
        simp [quoteStep, openQuote, optionStep, hfree, hin]
    · -- no quote for `remove_comment`, and for the option lexer an escaped one at most
      have hkeep : quoteStep (openQuote inQuote) before.getLast? c = openQuote inQuote := by
        cases inQuote
        · exact (quoteStep_none before c).2 hquote
        · exact (quoteStep_some before '"' c).2 fun h => hquote h.1
      have hsame : (optionStep (inQuote, escaped) c).1 = inQuote := by
        cases escaped with
        | true => rfl
        | false =>
          by_cases hc : c = '"'
          · have hlast : before.getLast? = some '\\' := by
              by_contra hne
              exact hquote ⟨.inl hc, hne⟩
            exact absurd rfl (hdouble hc hlast)
          · unfold optionStep
            by_cases hback : c = '\\' <;> simp [hc, hback]
      rw [hkeep, hsame]

/-- **Where the lexers part**: when one of them is in quotes and the other one is
not, a quote before was misread. -/
theorem exists_misread {text : Str} (hin : (optionState text).1 = true) (houtside : Unquoted text) :
    ∃ before c after, text = before ++ c :: after ∧ Misread before c := by
  by_contra hnone
  have hagree : ∀ before after, text = before ++ after →
      quoteAfter none none before = openQuote (optionState before).1 ∧
        ((optionState before).2 = true → before.getLast? = some '\\') := by
    intro before
    induction before using List.reverseRecOn with
    | nil => exact fun _ _ => ⟨rfl, nofun⟩
    | append_singleton before c ih =>
      intro after heq
      rw [List.append_assoc] at heq
      obtain ⟨hquote, hescaped⟩ := ih _ heq
      have hread : ¬ Misread before c := fun hmis => hnone ⟨before, c, after, heq, hmis⟩
      rw [quoteAfter_concat, hquote, Option.or_none, optionState_concat]
      refine ⟨quoteStep_openQuote hread hescaped, fun hstep => ?_⟩
      rw [List.getLast?_concat]
      unfold optionStep at hstep
      split at hstep
      · cases hstep
      split at hstep
      · rename_i hback
        rw [hback]
      split at hstep <;> cases hstep
  have hquote := (hagree text [] (List.append_nil text).symm).1
  rw [quoteAfter_eq_none_iff.mpr houtside, hin] at hquote
  cases hquote

/-- The lexers agree when no quote is misread. -/
theorem lexersAgree_of_not_misread {body : Str}
    (h : ∀ before c after, body = before ++ c :: after → ¬ Misread before c) :
    LexersAgree body := by
  rintro before c after rfl - ⟨hin, houtside⟩
  obtain ⟨a, d, b, rfl, hmis⟩ := exists_misread hin houtside
  exact h a d (b ++ c :: after) (by simp) hmis

/-- **Comments and quotes**: a rule line whose comment marks the option lexer finds
in quotes is kept exactly when `remove_comment` finds none of them outside its own
quotes. -/
theorem removeComment_ruleLine_iff {header body : Str} (hheader : plainHeader header = true)
    (hbody : quotesComments body = true) :
    removeComment (ruleLine header body) = ruleLine header body ↔ LexersAgree body := by
  rw [removeComment_ruleLine hheader, removeComment_eq_self_iff]
  constructor
  · exact fun h before c after heq hstarts hboth => h before c after heq hstarts hboth.2
  · intro h before c after heq hstarts houtside
    have hquoted : (optionState before).1 = true :=
      inQuote_of_quotesCommentsFrom (heq ▸ hbody) hstarts
    exact h before c after heq hstarts ⟨hquoted, houtside⟩

/-- `alert tcp any any -> any any (content:"C:\\"; msg:"#1";)`: the first value ends in an escaped
backslash. -/
theorem removeComment_ruleLine_iff_backslash :
    ¬ LexersAgree "content:\"C:\\\\\"; msg:\"#1\";".toList := by
  have hheader : plainHeader "alert tcp any any -> any any ".toList = true := by decide
  rw [← removeComment_ruleLine_iff hheader (by decide)]
  decide

/-- That line loses everything from the `#` in the second value on. -/
theorem backslash_not_kept :
    ¬ ∀ header body, plainHeader header = true → quotesComments body = true →
      removeComment (ruleLine header body) = ruleLine header body := by
  intro hkept
  have hline := hkept "alert tcp any any -> any any ".toList
    "content:\"C:\\\\\"; msg:\"#1\";".toList
    (by decide) (by decide)
  exact absurd hline (by decide)

end PacketGuard.Rules
