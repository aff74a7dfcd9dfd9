import PacketGuard.Policy.Parsed
import PacketGuard.Policy.Policy

/-! # Every recognised line is accounted for

The loop of `parse_policy_text` tests each line for the two firewall dialects.
A line that passes one of the tests leaves a rule or a diagnostic with its
number; a line that passes neither is left to the readers of settings, which
are used only when there is no firewall rule at all.  So once a text has a
firewall rule, the lines that count are exactly the recognised ones.
-/
namespace PacketGuard.Policy
open PacketGuard.Core PacketGuard.Lib

/-- The line left a rule, a setting or a diagnostic with its number. -/
def PolicyFile.Accounts (file : PolicyFile) (n : Nat) : Prop :=
  (∃ rule ∈ file.firewallRules, rule.line = n) ∨ (∃ setting ∈ file.settings, setting.line = n) ∨
    ∃ d ∈ file.diagnostics, d.offset = n

instance (file : PolicyFile) (n : Nat) : Decidable (file.Accounts n) :=
  inferInstanceAs (Decidable (_ ∨ _ ∨ _))

/-- The line, cleaned, passes the test for one of the dialects. -/
def Recognised (clean : Str) : Prop := iptablesLine clean = true ∨ nftablesLine clean = true

/-! ## One line -/

theorem LineFailure.ne_unparsed {status : Status} (h : LineFailure status) :
    status.message ≠ "unparsed".toList := by
  cases h with
  | expr h =>
    cases h with
    | address part => simp [Status.failure]
    | _ => decide
  | _ => decide

/-- A recognised line is parsed, or fails for a reason of its own; only a line
that is not recognised is `unparsed`. -/
theorem parsePolicyLine_outcome (clean : Str) (n : Nat) :
    Outcome (fun r => r.line = n ∧ Recognised clean)
      (fun e => e.message ≠ "unparsed".toList ↔ Recognised clean) (parsePolicyLine clean n) := by
  refine .ite (fun hipt => ?_) fun hipt => .ite (fun hnft => ?_) fun hnft => ?_
  · refine (parseIptablesRule_outcome clean n).imp ?_ fun e he => ?_
    · rintro r ⟨hr, -, -⟩
      exact ⟨hr.origin.1, Or.inl hipt⟩
    · exact iff_of_true he.ne_unparsed (Or.inl hipt)
  · refine (parseNftablesRule_outcome clean n).imp ?_ fun e he => ?_
    · rintro r ⟨s, hs, rfl, -⟩
      refine ⟨?_, Or.inr hnft⟩
      -- a guessed chain does not touch the line number
      split_ifs <;> exact hs.origin.1
    · exact iff_of_true he.ne_unparsed (Or.inr hnft)
  · have hmessage : (Status.failure "unparsed".toList).message = "unparsed".toList := rfl
    exact iff_of_false (not_not_intro hmessage) (not_or_intro hipt hnft)

/-- The numbers that a line contributes: its own, if it is recognised. -/
theorem line_marks (n k : Nat) (clean : Str) :
    ((∃ rule ∈ lineRules n clean, rule.line = k) ∨ ∃ d ∈ lineDiagnostics n clean, d.offset = k) ↔
      k = n ∧ Recognised clean := by
  have hline := parsePolicyLine_outcome clean n
  rcases hparsed : parsePolicyLine clean n with e | rule
  · have hrules : lineRules n clean = [] := by simp only [lineRules, hparsed]
    have hmessage := hline.of_eq_error hparsed
    by_cases hrec : Recognised clean
    · have hdiag : lineDiagnostics n clean = Diagnostics.warn "policy.rule".toList e.message n := by
        simp only [lineDiagnostics, hparsed, if_pos (hmessage.mpr hrec)]
      rw [hrules, hdiag]
      simp [Diagnostics.warn, hrec, eq_comm]
    · have hdiag : lineDiagnostics n clean = [] := by
        simp only [lineDiagnostics, hparsed, if_neg (mt hmessage.mp hrec)]
      rw [hrules, hdiag]
      simp [hrec]
  · have hrules : lineRules n clean = [rule] := by simp only [lineRules, hparsed]
    obtain ⟨hn, hrec⟩ := hline.of_eq_ok hparsed
    constructor
    · rintro (⟨r, hr, rfl⟩ | ⟨d, hd, rfl⟩)
      · rw [hrules, List.mem_singleton] at hr
        exact ⟨hr ▸ hn, hrec⟩
      · -- the warnings about a parsed rule carry its line number
        simp only [lineDiagnostics, hparsed] at hd
        obtain ⟨w, -, hw⟩ := List.mem_flatMap.mp hd
        cases List.mem_singleton.mp hw
        exact ⟨rfl, hrec⟩
    · rintro ⟨rfl, -⟩
      exact Or.inl ⟨rule, hrules ▸ List.mem_singleton_self rule, hn⟩

/-! ## The loop -/

/-- The numbers that the loop has put into rules and diagnostics so far. -/
def PolicyScan.Marks (s : PolicyScan) (k : Nat) : Prop :=
  (∃ rule ∈ s.firewallRules, rule.line = k) ∨ ∃ d ∈ s.diagnostics, d.offset = k

theorem not_recognised_nil : ¬Recognised [] := by
  rintro (h | h) <;> exact absurd h (by decide)

theorem PolicyScan.step_n (s : PolicyScan) (line : Str) : (s.step line).n = s.n + 1 := by
  unfold PolicyScan.step
  dsimp only
  split <;> rfl

theorem PolicyScan.step_blank (s : PolicyScan) {line : Str}
    (h : (trim (removeComment line)).isEmpty) :
    s.step line = { s with n := s.n + 1 } := if_pos h

theorem PolicyScan.step_line (s : PolicyScan) {line : Str}
    (h : ¬(trim (removeComment line)).isEmpty = true) :
    (s.step line).firewallRules = s.firewallRules ++ lineRules (s.n + 1)
    (trim (removeComment line)) ∧
      (s.step line).diagnostics =
        s.diagnostics ++ lineDiagnostics (s.n + 1) (trim (removeComment line)) := by
  unfold PolicyScan.step
  dsimp only
  rw [if_neg h]
  exact ⟨rfl, rfl⟩

/-- **Step lemma.**  A turn adds the number of its line if the line is recognised. -/
theorem PolicyScan.step_marks (s : PolicyScan) (line : Str) (k : Nat) :
    (s.step line).Marks k ↔
      s.Marks k ∨ (k = s.n + 1 ∧ Recognised (trim (removeComment line))) := by
  by_cases hempty : (trim (removeComment line)).isEmpty
  · have hnot : ¬Recognised (trim (removeComment line)) := by
      rw [List.isEmpty_iff.mp hempty]
      exact not_recognised_nil
    rw [s.step_blank hempty]
    exact ⟨Or.inl, fun h => h.resolve_right fun hline => hnot hline.2⟩
  · obtain ⟨hrules, hdiag⟩ := s.step_line hempty
    rw [← line_marks (s.n + 1) k]
    simp only [PolicyScan.Marks, hrules, hdiag, List.mem_append, or_and_right, exists_or]
    exact or_or_or_comm

/-- A line of a longer list is a line of the list, or the last one. -/
theorem exists_numbered_concat {lines : List Str} {last : Str} {P : Nat → Str → Prop} :
    (∃ i line, (lines ++ [last])[i]? = some line ∧ P i line) ↔
      (∃ i line, lines[i]? = some line ∧ P i line) ∨ P lines.length last := by
  constructor
  · rintro ⟨i, line, hline, hP⟩
    rcases Nat.lt_or_ge i lines.length with hi | hi
    · rw [List.getElem?_append_left hi] at hline
      exact Or.inl ⟨i, line, hline, hP⟩
    · rw [List.getElem?_append_right hi, List.getElem?_singleton] at hline
      split at hline
      · rename_i hzero
        cases hline
        have hi' : i = lines.length := by omega
        exact Or.inr (hi' ▸ hP)
      · cases hline
  · rintro (⟨i, line, hline, hP⟩ | hP)
    · refine ⟨i, line, ?_, hP⟩
      rw [List.getElem?_append_left (List.getElem?_eq_some_iff.mp hline).1]
      exact hline
    · exact ⟨lines.length, last, by simp, hP⟩

/-- **Run lemma.**  After any lines, the numbers in rules and diagnostics are
those of the recognised lines. -/
theorem policyMachine_marks (lines : List Str) :
    (policyMachine.run lines).n = lines.length ∧
      ∀ k, (policyMachine.run lines).Marks k ↔
        ∃ i line, lines[i]? = some line ∧ k = i + 1 ∧ Recognised (trim (removeComment line)) := by
  refine policyMachine.run_induction
    (P := fun lines s => s.n = lines.length ∧ ∀ k, s.Marks k ↔
      ∃ i line, lines[i]? = some line ∧ k = i + 1 ∧ Recognised (trim (removeComment line)))
        ?_ ?_ lines
  · refine ⟨rfl, fun k => iff_of_false ?_ ?_⟩
    · rintro (⟨r, hr, -⟩ | ⟨d, hd, -⟩)
      · cases hr
      · cases hd
    · rintro ⟨i, line, hline, -⟩
      simp at hline
  · rintro lines line ⟨hn, hmarks⟩
    refine ⟨by rw [List.length_append, ← hn]; exact PolicyScan.step_n _ _, fun k => ?_⟩
    refine (PolicyScan.step_marks _ _ _).trans ?_
    rw [hmarks, hn, exists_numbered_concat]

/-! ## Texts -/

theorem firewallRules_parsePolicyText (text : Str) :
    (parsePolicyText text).firewallRules =
      (policyMachine.run (getlines '\n' text)).firewallRules := by
  show (scannedFile text).firewallRules = _
  unfold scannedFile
  dsimp only
  by_cases hempty : (policyMachine.run (getlines '\n' text)).firewallRules.isEmpty
  · rw [if_pos hempty]
    exact (List.isEmpty_iff.mp hempty).symm
  · rw [if_neg hempty]

theorem offset_reviewDiagnostics {code : String} {texts : List Str} {d : Diagnostic}
    (h : d ∈ reviewDiagnostics code texts) : d.offset = 0 := by
  obtain ⟨text, -, hd⟩ := List.mem_flatMap.mp h
  cases List.mem_singleton.mp hd
  rfl

/-- In a text with a firewall rule, only the loop over the lines gives numbers. -/
theorem accounts_iff_marks {text : Str} (hrules : (parsePolicyText text).firewallRules ≠ [])
    {k : Nat}
    (hk : k ≠ 0) :
    (parsePolicyText text).Accounts k ↔ (policyMachine.run (getlines '\n' text)).Marks k := by
  rw [firewallRules_parsePolicyText] at hrules
  have hfile : (scannedFile text).settings = [] ∧
      (scannedFile text).diagnostics = (policyMachine.run (getlines '\n' text)).diagnostics := by
    unfold scannedFile
    dsimp only
    rw [if_neg (by rwa [List.isEmpty_iff])]
    exact ⟨rfl, rfl⟩
  have hsettings : (parsePolicyText text).settings = [] := hfile.1
  have hdiag : (∃ d ∈ (parsePolicyText text).diagnostics, d.offset = k) ↔
      ∃ d ∈ (policyMachine.run (getlines '\n' text)).diagnostics, d.offset = k := by
    rw [← hfile.2]
    constructor
    · rintro ⟨d, hd, hoffset⟩
      simp only [parsePolicyText, List.mem_append] at hd
      rcases hd with ((hd | hd) | hd) | hd
      · exact ⟨d, hd, hoffset⟩
      all_goals exact absurd (hoffset.symm.trans (offset_reviewDiagnostics hd)) hk
    · rintro ⟨d, hd, hoffset⟩
      exact ⟨d, by simp [parsePolicyText, hd], hoffset⟩
  unfold PolicyFile.Accounts PolicyScan.Marks
  rw [firewallRules_parsePolicyText, hsettings, hdiag]
  simp

/-- **No recognised line is lost.**  In a text with a firewall rule, a line leaves
a rule, a setting or a diagnostic with its number exactly when it is recognised. -/
theorem parsePolicyText_accounts {text line : Str} {i : Nat}
    (hrules : (parsePolicyText text).firewallRules ≠ [])
    (hline : (getlines '\n' text)[i]? = some line) :
    (parsePolicyText text).Accounts (i + 1) ↔ Recognised (trim (removeComment line)) := by
  rw [accounts_iff_marks hrules (Nat.succ_ne_zero i), (policyMachine_marks _).2]
  constructor
  · rintro ⟨j, l, hl, hj, hrec⟩
    obtain rfl : i = j := Nat.succ.inj hj
    cases hline.symm.trans hl
    exact hrec
  · exact fun hrec => ⟨i, line, hline, rfl, hrec⟩

/-- A firewall rule, followed by a section of settings. -/
def mixedPolicy : Str := "iptables -A INPUT -j DROP\n[auth]\nlength=14\n".toList

set_option maxRecDepth 2000 in
theorem parsePolicyText_accounts_mixedPolicy :
    (parsePolicyText mixedPolicy).Accounts (0 + 1) ↔
      Recognised (trim (removeComment "iptables -A INPUT -j DROP".toList)) :=
  parsePolicyText_accounts (by decide) (by decide)

set_option maxRecDepth 2000 in
/-- The setting is lost: the line is not empty, and nothing carries its number. -/
theorem mixedPolicy_loses_setting :
    (parsePolicyText mixedPolicy).firewallRules ≠ [] ∧
      (getlines '\n' mixedPolicy)[2]? = some "length=14".toList ∧
      trim (removeComment "length=14".toList) ≠ [] ∧ ¬(parsePolicyText mixedPolicy).Accounts 3 := by
  refine ⟨?_, ?_, ?_, ?_⟩ <;> decide

end PacketGuard.Policy
