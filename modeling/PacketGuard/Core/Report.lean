import PacketGuard.Core.IsoTime
import PacketGuard.Core.TextFile
import PacketGuard.Lib.Outcome
import PacketGuard.Lib.Tally

/-! # Reports

A report is written line by line.  What stands in a line comes from files and
packets; a line stays one line when none of it holds a newline.
-/
namespace PacketGuard.Core
open PacketGuard.Lib

def severityName : Severity → Str
  | .error => "error".toList
  | .warning => "warning".toList
  | .info => "info".toList

/-- The line of `Diagnostics::summary` for an entry. -/
def Diagnostic.line (d : Diagnostic) : Str :=
  severityName d.severity ++ ':' ::
    (d.code ++ '@' :: (natToString d.offset ++ ": ".toList ++ d.message))

def Diagnostics.summary (diag : Diagnostics) : Str := textOf (diag.map Diagnostic.line)

/-- The text fits into a line. -/
def OneLine (text : Str) : Prop := '\n' ∉ text

instance (text : Str) : Decidable (OneLine text) := inferInstanceAs (Decidable (_ ∉ _))

namespace OneLine

theorem append {a b : Str} (ha : OneLine a) (hb : OneLine b) : OneLine (a ++ b) := by
  intro h
  rcases List.mem_append.mp h with h | h
  · exact ha h
  · exact hb h

theorem cons {c : Char} {a : Str} (hc : '\n' ≠ c) (ha : OneLine a) : OneLine (c :: a) := by
  intro h
  rcases List.mem_cons.mp h with h | h
  · exact hc h
  · exact ha h

theorem nil : OneLine [] := List.not_mem_nil

theorem of_noSpace {a : Str} (h : NoSpace a) :
    OneLine a := fun hmem => absurd (h '\n' hmem) (by decide)

theorem natToString (n : Nat) : OneLine (natToString n) := of_noSpace (noSpace_natToString n)

theorem intercalate {sep : Str} {pieces : List Str} (hsep : OneLine sep)
    (h : ∀ p ∈ pieces, OneLine p) :
    OneLine (sep.intercalate pieces) := by
  cases pieces with
  | nil => exact nil
  | cons p pieces =>
    rw [intercalate_cons_eq]
    refine (h p List.mem_cons_self).append fun hmem => ?_
    obtain ⟨q, hq, hmem⟩ := List.mem_flatMap.mp hmem
    exact hsep.append (h q (List.mem_cons_of_mem _ hq)) hmem

theorem bytesToHex (data : List UInt8) : OneLine (bytesToHex data) := by
  have hdigit : ∀ n, '\n' ≠ "0123456789abcdef".toList.getD n '0' := by
    intro n
    by_cases hn : n < 16
    · revert n
      decide
    · rw [List.getD_eq_default _ _ (by simpa using hn)]
      decide
  intro h
  obtain ⟨b, -, h⟩ := List.mem_flatMap.mp h
  rcases List.mem_cons.mp h with h | h
  · exact hdigit _ h
  · exact hdigit _ (List.mem_singleton.mp h)

theorem zeroFilled (width : Nat) (n : Int) : OneLine (zeroFilled width n) := by
  intro h
  rcases List.mem_append.mp h with h | h
  · exact absurd (List.eq_of_mem_replicate h) (by decide)
  · unfold intToString at h
    split at h
    · exact (natToString _).cons (by decide) h
    · exact natToString _ h

theorem intToString (n : Int) : OneLine (intToString n) := by
  unfold Core.intToString
  split
  · exact (natToString _).cons (by decide)
  · exact natToString _

/-- A printed time stamp fits into a line. -/
theorem timestamp (t : Timestamp) : OneLine t.toString := by
  have hcolon : ∀ {a b : Str}, OneLine a → OneLine b → OneLine (a ++ ':' :: b) :=
    fun ha hb => ha.append (hb.cons (by decide))
  have hdash : ∀ {a b : Str}, OneLine a → OneLine b → OneLine (a ++ '-' :: b) :=
    fun ha hb => ha.append (hb.cons (by decide))
  refine append ?_ (cons (by decide) ((zeroFilled 9 _).append (nil.cons (by decide))))
  refine hdash (intToString _)
    (hdash (zeroFilled 2 _) ((zeroFilled 2 _).append (cons (by decide) ?_)))
  exact hcolon (zeroFilled 2 _) (hcolon (zeroFilled 2 _) (zeroFilled 2 _))

end OneLine

/-- What the line of an entry is made of. -/
def Diagnostic.OneLine (d : Diagnostic) : Prop := Core.OneLine d.code ∧ Core.OneLine d.message

/-- A text that is said on a condition. -/
theorem oneLine_of_mem_ite {p : Prop} [Decidable p] {w : Str} {text : String}
    (htext : OneLine text.toList)
    (hw : w ∈ if p then [text.toList] else []) : OneLine w := by
  split at hw
  · rwa [List.mem_singleton.mp hw]
  · cases hw

theorem oneLine_diagnostic {d : Diagnostic} (h : d.OneLine) : OneLine d.line := by
  have hname : Core.OneLine (severityName d.severity) := by cases d.severity <;> decide
  refine hname.append (.cons (by decide) (h.1.append (.cons (by decide) ?_)))
  exact ((OneLine.natToString _).append (by decide)).append h.2

/-! ## Quiet texts -/

/-- Nothing that is said breaks a line. -/
def QuietNotes (diag : Diagnostics) : Prop := ∀ d ∈ diag, d.OneLine

theorem QuietNotes.append {a b : Diagnostics} (ha : QuietNotes a) (hb : QuietNotes b) :
    QuietNotes (a ++ b) := by
  intro d hd
  rcases List.mem_append.mp hd with hd | hd
  · exact ha d hd
  · exact hb d hd

theorem quietNotes_nil : QuietNotes [] := fun _ hd => absurd hd List.not_mem_nil

theorem quietNotes_singleton {d : Diagnostic} (h : d.OneLine) : QuietNotes [d] := by
  intro d' hd'
  rw [List.mem_singleton.mp hd']
  exact h

theorem quietNotes_said {severity : Severity} {code message : Str} {offset : Nat}
    (hcode : OneLine code)
    (hmessage : OneLine message) : QuietNotes [⟨severity, code, message, offset⟩] :=
  quietNotes_singleton ⟨hcode, hmessage⟩

theorem quietNotes_ite {p : Prop} [Decidable p] {a b : Diagnostics} (ha : QuietNotes a)
    (hb : QuietNotes b) :
    QuietNotes (if p then a else b) := by
  split
  · exact ha
  · exact hb

/-- The error of a reader, if it fails, fits into a line. -/
abbrev QuietFailure {α : Type} (r : Result α) : Prop :=
  Outcome (fun _ => True) (fun e => OneLine e.message) r

theorem quietFailure {α : Type} {msg : String} (h : OneLine msg.toList) :
    QuietFailure (failure msg : Result α) := h

/-- The line of a report for a key that was counted. -/
def countLine (label : String) (kv : Str × Nat) : Str :=
  label.toList ++ (kv.1 ++ '=' :: natToString kv.2)

theorem oneLine_countLine {label : String} {kv : Str × Nat} (hlabel : OneLine label.toList)
    (hkey : OneLine kv.1) :
    OneLine (countLine label kv) :=
  hlabel.append (hkey.append (.cons (by decide) (.natToString _)))

/-- The lines for all keys that were counted. -/
theorem oneLine_of_mem_countLines {τ : Type} {label : String} {items : List τ} {f : τ → Str}
    {line : Str}
    (hlabel : OneLine label.toList) (hf : ∀ x ∈ items, OneLine (f x))
    (hline : line ∈ (countAll (items.map f)).toList.map (countLine label)) : OneLine line := by
  obtain ⟨⟨name, n⟩, hname, rfl⟩ := List.mem_map.mp hline
  obtain ⟨x, hx, rfl⟩ := List.mem_map.mp (mem_toList_countAll.mp hname).1
  exact oneLine_countLine hlabel (hf x hx)

theorem oneLine_of_mem_getlines {text line : Str} (h : line ∈ getlines '\n' text) :
    OneLine line := by
  have hpiece : line ∈ text.splitOn '\n' := by
    obtain hpieces | hpieces := splitOn_eq_getlines '\n' text
    · rwa [hpieces]
    · rw [hpieces]
      exact List.mem_append_left _ h
  exact fun hmem => (of_mem_splitOn hpiece hmem).2 rfl

theorem textOf_append (a b : List Str) : textOf (a ++ b) = textOf a ++ textOf b :=
  List.flatMap_append

/-- Whatever the lines of a file hold, the file is the file of what is read of it. -/
theorem textOf_getlines (lines : List Str) :
    textOf (getlines '\n' (textOf lines)) = textOf lines := by
  have hlast : (textOf lines).splitOn '\n' = getlines '\n' (textOf lines) ++ [[]] := by
    obtain hpieces | hpieces := splitOn_eq_getlines '\n' (textOf lines)
    · -- the last piece is empty, and `getlines` leaves it out
      exfalso
      have hempty : ((textOf lines).splitOn '\n').getLast? = some [] := by
        induction lines using List.reverseRecOn with
        | nil => rfl
        | append_singleton lines line _ =>
          have htext : textOf (lines ++ [line]) = (textOf lines ++ line) ++ '\n' :: [] := by
            simp [textOf]
          rw [htext, List.splitOn_append_cons_self, List.splitOn_nil, List.getLast?_concat]
      have hne := List.splitOn_ne_nil '\n' (textOf lines)
      rw [getlines, if_pos hempty] at hpieces
      have hlength := congrArg List.length hpieces
      rw [List.length_dropLast] at hlength
      have hpos := List.length_pos_iff.mpr hne
      omega
    · exact hpieces
  rw [textOf_eq_intercalate (getlines _ _), ← hlast, List.intercalate_splitOn]

/-- A report that ends in what the diagnostics say is read back line by line. -/
theorem getlines_report {lines : List Str} {diag : Diagnostics}
    (hlines : ∀ line ∈ lines, OneLine line)
    (hquiet : QuietNotes diag) :
    getlines '\n' (textOf lines ++ if diag.isEmpty then [] else diag.summary) =
      lines ++ diag.map Diagnostic.line := by
  have hsummary : (if diag.isEmpty then [] else diag.summary) =
      textOf (diag.map Diagnostic.line) := by
    cases diag <;> rfl
  rw [hsummary, ← textOf_append]
  refine getlines_textOf fun line hline => ?_
  rcases List.mem_append.mp hline with hline | hline
  · exact hlines line hline
  · obtain ⟨d, hd, rfl⟩ := List.mem_map.mp hline
    exact oneLine_diagnostic (hquiet d hd)

end PacketGuard.Core
