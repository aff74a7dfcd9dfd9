import PacketGuard.Core.Strings

/-! # Text that comment removal keeps

`remove_comment` cuts a line at a `#` or a `//` outside quotes.  Text is
`Uncommented` when it keeps it, whatever follows: quiet text, text in double
quotes, and what is put together from such pieces.
-/
namespace PacketGuard.Core

/-- The character before the text matters only when it is a backslash. -/
theorem removeCommentFrom_prev (quote : Option Char) {prev : Option Char} (h : prev ≠ some '\\')
    (value : Str) : removeCommentFrom quote prev value = removeCommentFrom quote none value := by
  have hstep : ∀ c, quoteStep quote prev c = quoteStep quote none c := by
    intro c
    have hprev : (prev != some '\\') = true := bne_iff_ne.mpr h
    have hnone : ((none : Option Char) != some '\\') = true := rfl
    simp only [quoteStep, hprev, hnone]
  cases value with
  | nil => rfl
  | cons c value => simp only [removeCommentFrom, hstep]

/-- Neither a quote, nor a backslash, nor the start of a comment. -/
def Quiet (c : Char) : Prop := c ≠ '"' ∧ c ≠ '\'' ∧ c ≠ '#' ∧ c ≠ '/' ∧ c ≠ '\\'

theorem removeComment_quiet {c : Char} (h : Quiet c) (rest : Str) :
    removeComment (c :: rest) = c :: removeComment rest := by
  obtain ⟨hdouble, hsingle, hhash, hslash, hback⟩ := h
  have hstep : quoteStep none none c = none := by simp [quoteStep, hdouble, hsingle]
  have hrest : removeCommentFrom none (some c) rest = removeCommentFrom none none rest :=
    removeCommentFrom_prev none (by simpa using hback) rest
  simp [removeComment, removeCommentFrom, hstep, hhash, hslash, hrest]

theorem removeComment_slash {rest : Str} (h : rest.head? ≠ some '/') :
    removeComment ('/' :: rest) = '/' :: removeComment rest := by
  have hrest : removeCommentFrom none (some '/') rest = removeCommentFrom none none rest :=
    removeCommentFrom_prev none (by decide) rest
  simp [removeComment, removeCommentFrom, quoteStep, h, hrest]

/-- Within double quotes everything is kept. -/
theorem removeCommentFrom_inQuotes {prev : Option Char} (hprev : prev ≠ some '\\') {value : Str}
    (h : ∀ c ∈ value, c ≠ '"' ∧ c ≠ '\\') (rest : Str) :
    removeCommentFrom (some '"') prev (value ++ '"' :: rest) =
      value ++ '"' :: removeComment rest := by
  induction value generalizing prev with
  | nil =>
    have hclose : quoteStep (some '"') prev '"' = none := by simp [quoteStep, hprev]
    have hrest : removeCommentFrom none (some '"') rest = removeCommentFrom none none rest :=
      removeCommentFrom_prev none (by decide) rest
    simp [removeComment, removeCommentFrom, hclose, hrest]
  | cons c value ih =>
    obtain ⟨hdouble, hback⟩ := h c (by simp)
    have hopen : quoteStep (some '"') prev c = some '"' := by
      simp [quoteStep, Ne.symm hdouble]
    have hrest := ih (show some c ≠ some '\\' by simpa using hback) fun d hd => h d (by simp [hd])
    simp [removeCommentFrom, hopen, hrest]

/-- Text that comment removal keeps, whatever follows it. -/
structure Uncommented (value : Str) : Prop where
  head : value.head? ≠ some '/'
  keep : ∀ rest : Str, rest.head? ≠ some '/' → removeComment (value ++ rest) = value ++
    removeComment rest

theorem Uncommented.removeComment_eq {value : Str} (h : Uncommented value) :
    removeComment value = value := by
  have hkeep := h.keep [] (by simp)
  simpa [removeComment, removeCommentFrom] using hkeep

theorem Uncommented.nil : Uncommented [] := ⟨by simp, fun _ _ => rfl⟩

theorem Uncommented.append {a b : Str} (ha : Uncommented a) (hb : Uncommented b) :
    Uncommented (a ++ b) := by
  have hhead : ∀ rest : Str, rest.head? ≠ some '/' → (b ++ rest).head? ≠ some '/' := by
    intro rest hrest
    cases b with
    | nil => exact hrest
    | cons c b => exact hb.head
  constructor
  · cases a with
    | nil => exact hb.head
    | cons c a => exact ha.head
  · intro rest hrest
    rw [List.append_assoc, ha.keep _ (hhead rest hrest), hb.keep rest hrest, List.append_assoc]

theorem Uncommented.flatMap {α : Type} {f : α → Str} {items : List α}
    (h : ∀ x ∈ items, Uncommented (f x)) : Uncommented (items.flatMap f) := by
  induction items with
  | nil => exact Uncommented.nil
  | cons x items ih =>
    rw [List.flatMap_cons]
    exact (h x (by simp)).append (ih fun y hy => h y (by simp [hy]))

theorem uncommented_of_quiet {value : Str} (h : ∀ c ∈ value, Quiet c) : Uncommented value := by
  constructor
  · intro hhead
    exact (h '/' (List.mem_of_head? hhead)).2.2.2.1 rfl
  · intro rest _
    induction value with
    | nil => rfl
    | cons c value ih =>
      rw [List.cons_append, removeComment_quiet (h c (by simp)), ih fun d hd => h d (by simp [hd])]
      rfl

/-- A slash between quiet texts is no comment. -/
theorem uncommented_slash {a b : Str} (ha : ∀ c ∈ a, Quiet c) (hne : a ≠ []) (hb : ∀ c ∈ b, Quiet c)
    (hne' : b ≠ []) : Uncommented (a ++ '/' :: b) := by
  have hb' := uncommented_of_quiet hb
  constructor
  · rw [List.head?_append_of_ne_nil _ hne]
    exact (uncommented_of_quiet ha).head
  · intro rest hrest
    -- what follows the slash is not another one
    have hhead : (b ++ rest).head? ≠ some '/' := by
      rw [List.head?_append_of_ne_nil _ hne']
      exact hb'.head
    have hkeep : ∀ a : Str, (∀ c ∈ a, Quiet c) →
        removeComment (a ++ ('/' :: (b ++ rest))) = a ++ ('/' :: (b ++ removeComment rest)) := by
      intro a ha
      induction a with
      | nil => rw [List.nil_append, List.nil_append, removeComment_slash hhead, hb'.keep rest hrest]
      | cons c a ih =>
        rw [List.cons_append, removeComment_quiet (ha c (by simp)), ih fun d hd =>
          ha d (by simp [hd])]
        rfl
    rw [List.append_assoc, List.cons_append, hkeep a ha, List.append_assoc, List.cons_append]

/-- Text in double quotes, without quotes and backslashes of its own. -/
theorem uncommented_quoted {value : Str} (h : ∀ c ∈ value, c ≠ '"' ∧ c ≠ '\\') :
    Uncommented ('"' :: (value ++ ['"'])) := by
  refine ⟨by simp, fun rest _ => ?_⟩
  have hopen : quoteStep none none '"' = some '"' := rfl
  have hinside := removeCommentFrom_inQuotes (show some '"' ≠ some '\\' by decide) h rest
  rw [List.cons_append, List.append_assoc, List.singleton_append]
  simp [removeComment, removeCommentFrom, hopen, hinside]

end PacketGuard.Core
