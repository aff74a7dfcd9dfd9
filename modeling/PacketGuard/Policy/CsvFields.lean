import PacketGuard.Policy.Settings

/-! # CSV lines

A field is written as it is, when it holds neither a comma nor a quote, or in
quotes with its own quotes doubled.  `csv_split_line` reads a line of such fields
back: it stands outside quotes at every comma between them, and has read the text
of one field since the comma before.
-/
namespace PacketGuard.Policy
open PacketGuard.Core

/-- A character inside quotes. -/
def doubleQuote (c : Char) : Str := if c = '"' then ['"', '"'] else [c]

/-- The two ways to write a field. -/
inductive CsvWritten (field : Str) : Str → Prop
  | plain : ',' ∉ field → '"' ∉ field → CsvWritten field field
  | quoted : CsvWritten field ('"' :: (field.flatMap doubleQuote ++ ['"']))

/-- Inside quotes two quotes are one, -/
theorem csvSplitFrom_doubled (cur rest : Str) :
    csvSplitFrom cur true ('"' :: '"' :: rest) = csvSplitFrom (cur ++ ['"']) true rest := by
  rw [csvSplitFrom.eq_def]
  rfl

/-- and one ends them. -/
theorem csvSplitFrom_close (cur : Str) {rest : Str} (h : rest.head? ≠ some '"') :
    csvSplitFrom cur true ('"' :: rest) = csvSplitFrom cur false rest := by
  cases rest with
  | nil => rfl
  | cons d rest =>
    have hd : ¬ (true = true ∧ d = '"') := fun hboth => h (hboth.2 ▸ rfl)
    rw [csvSplitFrom.eq_def]
    exact (if_pos rfl).trans (if_neg hd)

theorem csvSplitFrom_open (cur rest : Str) :
    csvSplitFrom cur false ('"' :: rest) = csvSplitFrom cur true rest := by
  cases rest with
  | nil => rfl
  | cons d rest =>
    have hd : ¬ (false = true ∧ d = '"') := fun hboth => absurd hboth.1 (by decide)
    rw [csvSplitFrom.eq_def]
    exact (if_pos rfl).trans (if_neg hd)

/-- Any other character is part of the field, a comma only inside quotes. -/
theorem csvSplitFrom_char (cur rest : Str) {quote : Bool} {c : Char} (hquote : c ≠ '"')
    (hcomma : quote = false → c ≠ ',') :
    csvSplitFrom cur quote (c :: rest) = csvSplitFrom (cur ++ [c]) quote rest := by
  rw [csvSplitFrom.eq_def]
  exact (if_neg hquote).trans (if_neg fun hboth => hcomma hboth.2 hboth.1)

theorem csvSplitFrom_comma (cur rest : Str) :
    csvSplitFrom cur false (',' :: rest) = trim cur :: csvSplitFrom [] false rest := by
  rw [csvSplitFrom.eq_def]
  exact (if_neg (by decide)).trans (if_pos ⟨rfl, rfl⟩)

/-- A plain field is read up to its end. -/
theorem csvSplitFrom_plain {field : Str} (hcomma : ',' ∉ field) (hquote : '"' ∉ field)
    (cur rest : Str) :
    csvSplitFrom cur false (field ++ rest) = csvSplitFrom (cur ++ field) false rest := by
  induction field generalizing cur with
  | nil => rw [List.nil_append, List.append_nil]
  | cons c field ih =>
    rw [List.mem_cons, not_or] at hcomma hquote
    rw [List.cons_append, csvSplitFrom_char _ _ (Ne.symm hquote.1) fun _ => Ne.symm hcomma.1,
      ih hcomma.2 hquote.2, List.append_assoc, List.singleton_append]

/-- Inside quotes a field is read up to the quote behind it. -/
theorem csvSplitFrom_quoted (field cur : Str) {rest : Str} (h : rest.head? ≠ some '"') :
    csvSplitFrom cur true (field.flatMap doubleQuote ++ '"' :: rest) =
      csvSplitFrom (cur ++ field) false rest := by
  induction field generalizing cur with
  | nil => rw [List.flatMap_nil, List.nil_append, csvSplitFrom_close _ h, List.append_nil]
  | cons c field ih =>
    rw [List.flatMap_cons, List.append_assoc]
    by_cases hc : c = '"'
    · subst hc
      have hdouble : doubleQuote '"' = ['"', '"'] := rfl
      rw [hdouble, List.cons_append, List.cons_append, List.nil_append, csvSplitFrom_doubled, ih,
        List.append_assoc, List.singleton_append]
    · rw [doubleQuote, if_neg hc, List.singleton_append, csvSplitFrom_char _ _ hc (by simp), ih,
        List.append_assoc, List.singleton_append]

/-- **One field**: behind it the loop is outside quotes and has read the field. -/
theorem CsvWritten.csvSplitFrom_eq {field text : Str} (h : CsvWritten field text) {rest : Str}
    (hrest : rest.head? ≠ some '"') :
    csvSplitFrom [] false (text ++ rest) = csvSplitFrom field false rest := by
  cases h with
  | plain hcomma hquote => rw [csvSplitFrom_plain hcomma hquote, List.nil_append]
  | quoted =>
    rw [List.cons_append, csvSplitFrom_open, List.append_assoc, List.singleton_append,
      csvSplitFrom_quoted _ _ hrest, List.nil_append]

/-- **Whole lines**: the fields come back in their order, each of them trimmed. -/
theorem csvSplitLine_written {fields texts : List Str} (h : List.Forall₂ CsvWritten fields texts)
    (hne : fields ≠ []) : csvSplitLine ([','].intercalate texts) = fields.map trim := by
  unfold csvSplitLine
  induction h with
  | nil => exact absurd rfl hne
  | @cons field text fields texts hfield hfields ih =>
    cases hfields with
    | nil =>
      rw [List.intercalate_singleton, ← List.append_nil text, hfield.csvSplitFrom_eq (by simp)]
      rfl
    | cons hfield' hfields =>
      rw [List.intercalate_cons_cons, List.append_assoc, hfield.csvSplitFrom_eq (by simp),
        List.singleton_append, csvSplitFrom_comma, ih (by simp)]
      rfl

/-- The fields `a,b` (in quotes), `"` (in quotes), the empty one and ` c ` (both plain). -/
theorem csvSplitLine_written_mixed :
    csvSplitLine ([','].intercalate ["\"a,b\"".toList, "\"\"\"\"".toList, [], " c ".toList]) =
      ["a,b".toList, "\"".toList, [], " c ".toList].map trim := by
  have hcomma : CsvWritten "a,b".toList "\"a,b\"".toList := .quoted
  have hquote : CsvWritten "\"".toList "\"\"\"\"".toList := .quoted
  have hempty : CsvWritten [] [] := .plain List.not_mem_nil List.not_mem_nil
  have hblank : CsvWritten " c ".toList " c ".toList := .plain (by decide) (by decide)
  have hwritten : List.Forall₂ CsvWritten ["a,b".toList, "\"".toList, [], " c ".toList]
      ["\"a,b\"".toList, "\"\"\"\"".toList, [], " c ".toList] :=
    .cons hcomma (.cons hquote (.cons hempty (.cons hblank .nil)))
  exact csvSplitLine_written hwritten (List.cons_ne_nil _ _)

end PacketGuard.Policy
