import PacketGuard.Policy.Verdict
import PacketGuard.Policy.Written

/-! # One policy in two dialects

A rule that both dialects can express is written as a line of either: with flags,
or as an `add rule` line of phrases.  Whichever dialect a policy is written in,
the audit finds the same rules, decides the same about every flow and says the
same about the rules.

The loop of `parse_nftables_rule` looks at one token and takes as many behind it
as the word asks for.  A *phrase* is a word with these tokens, and carries the
proof of what the turn at it does to the rule (`NftPhrase.read`), so that a line
of phrases is read phrase by phrase, whatever the phrases are
(`parseNftablesRule_nftLineOf`).  A phrase also promises that none of its tokens
is cut by `remove_comment` or makes the line an iptables one; with that the line
reaches the loop, and its updates, run from the empty rule, are the fields of
the rule (`update_phrases`).

The two files then have the same rules but for the name of the dialect and the
text of the line.  Nothing in the audit depends on these two (`undialected`): the
checks, the shadow reports and the ordering warnings do not look at them, and the
normal forms of a file all start with the same dialect, which changes neither
which of them are equal nor the order in which the reports come
(`duplicateRules_of_dialect`).
-/
namespace PacketGuard.Policy
open PacketGuard.Core PacketGuard.Lib
open PacketGuard.Rules
  (PortExpr AddressExpr RuleProtocol parsePortExpr parseAddressExpr parseProtocol protocolName
  parsePortExpr_toString parseAddressExpr_toString)

/-! ## Phrases -/

/-- A token that does not make the line an iptables line. -/
structure LineWord (value : Str) : Prop extends Word value where
  notAppend : value ≠ "-A".toList

theorem Word.token {value : Str} (h : Word value) : NoSpace value ∧ value ≠ [] :=
  ⟨h.noSpace, h.nonempty⟩

theorem Word.noComment {value : Str} (h : Word value) : '#' ∉ value ∧ ¬ "//".toList <:+: value :=
  ⟨h.noHash, h.noSlashes⟩

theorem lineWord_of_letters {value : Str} (hne : value ≠ []) (h : value.all isAlnum = true) :
    LineWord value := by
  refine ⟨word_of_letters hne h, ?_⟩
  rintro rfl
  cases h

/-- A word of a rule with the tokens it takes, and what the turn at it does. -/
structure NftPhrase where
  word : Str
  args : List Str
  update : FirewallRule → FirewallRule
  plain : ∀ t ∈ word :: args, LineWord t
  read : ∀ rule rest, nftablesToken rule word (args ++ rest) = .ok (update rule, args.length)

/-- The tokens of the phrases. -/
def phraseTokens (phrases : List NftPhrase) : List Str := phrases.flatMap fun p => p.word :: p.args

def nftLineOf (phrases : List NftPhrase) : Str := [' '].intercalate (phraseTokens phrases)

theorem mem_phraseTokens {phrases : List NftPhrase} {t : Str} (h : t ∈ phraseTokens phrases) :
    LineWord t := by
  obtain ⟨p, -, ht⟩ := List.mem_flatMap.mp h
  exact p.plain t ht

section
variable {phrases : List NftPhrase}

theorem clean_nftLineOf (hne : phrases ≠ []) :
    trim (removeComment (nftLineOf phrases)) = nftLineOf phrases := by
  have htokens : phraseTokens phrases ≠ [] := by
    obtain ⟨p, phrases, rfl⟩ := List.exists_cons_of_ne_nil hne
    exact List.cons_ne_nil _ _
  rw [nftLineOf, removeComment_joined fun t ht => (mem_phraseTokens ht).toWord.noComment]
  exact trim_eq_self (trimmed_intercalate htokens fun t ht => (mem_phraseTokens ht).toWord.token)

/-- **A line of phrases** makes the rule that their updates make. -/
theorem parseNftablesRule_nftLineOf (hne : phrases ≠ []) (n : Nat) :
    parseNftablesRule (nftLineOf phrases) n = checkNftablesRule (nftLineOf phrases)
      (phrases.foldl (fun rule p => p.update rule)
        { raw := nftLineOf phrases, line := n, dialect := .nftables }) := by
  have hplain : ∀ t ∈ phraseTokens phrases, NoSpace t ∧ t ≠ [] := fun t ht =>
    (mem_phraseTokens ht).toWord.token
  have htokens : phraseTokens phrases ≠ [] := by
    obtain ⟨p, phrases, rfl⟩ := List.exists_cons_of_ne_nil hne
    exact List.cons_ne_nil _ _
  have hfilled : (nftLineOf phrases).isEmpty = false :=
    List.isEmpty_eq_false_iff.mpr (intercalate_ne_nil htokens fun t ht => (hplain t ht).2)
  have hsplit : splitWs (nftLineOf phrases) = phraseTokens phrases :=
    splitWs_intercalate htokens hplain
  have hscan := @scanTokens_phrases FirewallRule Str Status nftablesToken NftPhrase NftPhrase.word
    NftPhrase.args
    (fun rule p => p.update rule) (fun rule p rest => p.read rule rest)
    { raw := nftLineOf phrases, line := n, dialect := .nftables } phrases
  rw [parseNftablesRule]
  simp only [clean_nftLineOf hne, hfilled, hsplit]
  rw [if_neg Bool.false_ne_true, phraseTokens, hscan]
  rfl

/-- No blank-delimited `-A` stands in the line. -/
theorem not_contains_append : contains (nftLineOf phrases) " -A " = false := by
  rw [Bool.eq_false_iff]
  intro hin
  by_cases hne : phraseTokens phrases = []
  · rw [nftLineOf, hne] at hin
    cases hin
  have hmem : "-A".toList ∈ splitWs (nftLineOf phrases) :=
    mem_splitWs_of_infix (by simp [NoSpace, isSpace]) (by decide) (findStr_isSome_iff.mp hin)
  rw [nftLineOf, splitWs_intercalate hne fun t ht => (mem_phraseTokens ht).toWord.token] at hmem
  exact (mem_phraseTokens hmem).notAppend rfl

end

namespace NftPhrase

/-- A word that the loop passes over. -/
def passed (name : String) (hword : LineWord name.toList)
    (hread : ∀ rule rest, nftablesToken rule name.toList rest = .ok (rule, 0)) : NftPhrase where
  word := name.toList
  args := []
  update := id
  plain := by simpa using hword
  read := hread

/-- `add rule inet filter`. -/
def heading : List NftPhrase :=
  [.passed "add" (lineWord_of_letters (by decide) rfl) fun _ _ => rfl,
    .passed "rule" (lineWord_of_letters (by decide) rfl) fun _ _ => rfl,
    .passed "inet" (lineWord_of_letters (by decide) rfl) fun _ _ => rfl,
    .passed "filter" (lineWord_of_letters (by decide) rfl) fun _ _ => rfl]

theorem lineWord_chain (chain : Direction) : LineWord (directionName chain) := by
  cases chain <;> exact lineWord_of_letters (by decide) rfl

def chain (c : Direction) (h : c ≠ .unknown) : NftPhrase where
  word := "chain".toList
  args := [directionName c]
  update rule := { rule with chain := c }
  plain := by
    simp only [List.forall_mem_cons]
    exact ⟨lineWord_of_letters (by decide) rfl, lineWord_chain c, fun t ht =>
      absurd ht List.not_mem_nil⟩
  read rule rest := by
    cases c with
    | unknown => exact absurd rfl h
    | _ => rfl

/-- A flag is no address. -/
theorem lineWord_addresses {e : AddressExpr} (h : e.Printable) : LineWord e.toString := by
  refine ⟨word_addresses h, fun heq => ?_⟩
  have hparse := parseAddressExpr_toString h
  have hfail : (parseAddressExpr "-A".toList).toOption = none := rfl
  rw [← heq, hparse] at hfail
  cases hfail

/-- A flag is no port. -/
theorem lineWord_ports {e : PortExpr} (h : e.Printable) : LineWord e.toString := by
  refine ⟨word_ports h, fun heq => ?_⟩
  have hparse := parsePortExpr_toString h
  have hfail : (parsePortExpr "-A".toList).toOption = none := rfl
  rw [← heq, hparse] at hfail
  cases hfail

def source (e : AddressExpr) (h : e.Printable) : NftPhrase where
  word := "ip".toList
  args := ["saddr".toList, e.toString]
  update rule := { rule with source := e }
  plain := by
    simp only [List.forall_mem_cons]
    exact ⟨lineWord_of_letters (by decide) rfl, lineWord_of_letters (by decide) rfl,
      lineWord_addresses h,
      fun t ht => absurd ht List.not_mem_nil⟩
  read rule rest := by
    show ((parseAddressExpr e.toString).map fun a => ({ rule with source := a }, 2)) = _
    rw [parseAddressExpr_toString h]
    rfl

def destination (e : AddressExpr) (h : e.Printable) : NftPhrase where
  word := "ip".toList
  args := ["daddr".toList, e.toString]
  update rule := { rule with destination := e }
  plain := by
    simp only [List.forall_mem_cons]
    exact ⟨lineWord_of_letters (by decide) rfl, lineWord_of_letters (by decide) rfl,
      lineWord_addresses h,
      fun t ht => absurd ht List.not_mem_nil⟩
  read rule rest := by
    show ((parseAddressExpr e.toString).map fun a => ({ rule with destination := a }, 2)) = _
    rw [parseAddressExpr_toString h]
    rfl

/-- The protocols whose ports a phrase can limit. -/
def Ported (p : RuleProtocol) : Prop := p = .tcp ∨ p = .udp

instance (p : RuleProtocol) : Decidable (Ported p) := inferInstanceAs (Decidable (_ ∨ _))

theorem lineWord_ported {p : RuleProtocol} (h : Ported p) : LineWord (protocolName p) := by
  rcases h with rfl | rfl <;> exact lineWord_of_letters (by decide) rfl

def sourcePorts (p : RuleProtocol) (hp : Ported p) (e : PortExpr)
    (h : e.Printable) : NftPhrase where
  word := protocolName p
  args := ["sport".toList, e.toString]
  update rule := { rule with protocol := p, sourcePorts := e }
  plain := by
    simp only [List.forall_mem_cons]
    exact ⟨lineWord_ported hp, lineWord_of_letters (by decide) rfl, lineWord_ports h,
      fun t ht => absurd ht List.not_mem_nil⟩
  read rule rest := by
    rcases hp with rfl | rfl
    all_goals
      show ((parsePortExpr e.toString).map _) = _
      rw [parsePortExpr_toString h]
      rfl

def destinationPorts (p : RuleProtocol) (hp : Ported p) (e : PortExpr)
    (h : e.Printable) : NftPhrase where
  word := protocolName p
  args := ["dport".toList, e.toString]
  update rule := { rule with protocol := p, destinationPorts := e }
  plain := by
    simp only [List.forall_mem_cons]
    exact ⟨lineWord_ported hp, lineWord_of_letters (by decide) rfl, lineWord_ports h,
      fun t ht => absurd ht List.not_mem_nil⟩
  read rule rest := by
    rcases hp with rfl | rfl
    all_goals
      show ((parsePortExpr e.toString).map _) = _
      rw [parsePortExpr_toString h]
      rfl

/-- An interface without quotes around it. -/
def interfaceIn (value : Str) (h : LineWord value)
    (hquotes : stripQuotes value = value) : NftPhrase where
  word := "iif".toList
  args := [value]
  update rule := { rule with interfaceIn := value }
  plain := by
    simp only [List.forall_mem_cons]
    exact ⟨lineWord_of_letters (by decide) rfl, h, fun t ht => absurd ht List.not_mem_nil⟩
  read rule rest := by
    show (.ok ({ rule with interfaceIn := stripQuotes value }, 1) : Result (FirewallRule × Nat)) = _
    rw [hquotes]
    rfl

def interfaceOut (value : Str) (h : LineWord value)
    (hquotes : stripQuotes value = value) : NftPhrase where
  word := "oif".toList
  args := [value]
  update rule := { rule with interfaceOut := value }
  plain := by
    simp only [List.forall_mem_cons]
    exact ⟨lineWord_of_letters (by decide) rfl, h, fun t ht => absurd ht List.not_mem_nil⟩
  read rule rest := by
    show (.ok ({ rule with interfaceOut := stripQuotes value }, 1) :
      Result (FirewallRule × Nat)) = _
    rw [hquotes]
    rfl

def state (value : Str) (h : LineWord value) : NftPhrase where
  word := "ct".toList
  args := ["state".toList, value]
  update rule := { rule with state := value }
  plain := by
    simp only [List.forall_mem_cons]
    exact ⟨lineWord_of_letters (by decide) rfl, lineWord_of_letters (by decide) rfl, h,
      fun t ht => absurd ht List.not_mem_nil⟩
  read _ _ := rfl

/-- The targets that both dialects name. -/
def commonTargets : List String := ["ACCEPT", "DROP", "REJECT", "LOG", "RETURN"]

/-- What is done with the packet. -/
def target (name : String) (h : name ∈ commonTargets) : NftPhrase where
  word := toLower name.toList
  args := []
  update rule :=
    { rule with
      action := (parseFirewallAction name.toList).getD rule.action, jumpTarget := name.toList }
  plain := by
    simp only [commonTargets, List.mem_cons, List.not_mem_nil, or_false] at h
    intro t ht
    rw [List.mem_singleton.mp ht]
    rcases h with rfl | rfl | rfl | rfl | rfl <;> exact lineWord_of_letters (by decide) rfl
  read rule rest := by
    simp only [commonTargets, List.mem_cons, List.not_mem_nil, or_false] at h
    rcases h with rfl | rfl | rfl | rfl | rfl <;> rfl

end NftPhrase

/-! ## Rules -/

/-- A rule that both dialects can express.  Without a protocol there are no ports to limit. -/
structure CommonRule extends WrittenRule where
  targetName : String
  target_common : targetName ∈ NftPhrase.commonTargets
  target_eq : target = targetName.toList
  protocol_common : NftPhrase.Ported protocol ∨ protocol = .any ∧ sourcePorts = {} ∧
    destinationPorts = {}
  interfaceIn_noFlag : interfaceIn ≠ "-A".toList
  interfaceIn_noQuotes : stripQuotes interfaceIn = interfaceIn
  interfaceOut_noFlag : interfaceOut ≠ "-A".toList
  interfaceOut_noQuotes : stripQuotes interfaceOut = interfaceOut
  state_noFlag : state ≠ "-A".toList

namespace CommonRule
variable (r : CommonRule)

/-- The phrases that limit the ports. -/
def portPhrases : List NftPhrase :=
  if hp : NftPhrase.Ported r.protocol then
    [.sourcePorts r.protocol hp r.sourcePorts r.sourcePorts_printable,
      .destinationPorts r.protocol hp r.destinationPorts r.destinationPorts_printable]
  else []

/-- The phrases for the interfaces and the state that are not left out. -/
def limitPhrases : List NftPhrase :=
  (if h : r.interfaceIn = [] then []
    else [.interfaceIn r.interfaceIn ⟨r.interfaceIn_word.resolve_left h, r.interfaceIn_noFlag⟩
      r.interfaceIn_noQuotes]) ++
  (if h : r.interfaceOut = [] then []
    else [.interfaceOut r.interfaceOut ⟨r.interfaceOut_word.resolve_left h, r.interfaceOut_noFlag⟩
      r.interfaceOut_noQuotes]) ++
  (if h : r.state = [] then []
    else [.state r.state ⟨r.state_word.resolve_left h, r.state_noFlag⟩])

def phrases : List NftPhrase :=
  NftPhrase.heading ++
    [.chain r.chain r.chain_known, .source r.source r.source_printable,
      .destination r.destination r.destination_printable] ++
    r.portPhrases ++ r.limitPhrases ++ [.target r.targetName r.target_common]

/-- The rule as an `add rule` line. -/
def nftText : Str := nftLineOf r.phrases

/-- The rule as it is parsed from line `n`. -/
def nftParsed (n : Nat) : FirewallRule := { r.parsed n with dialect := .nftables, raw := r.nftText }

/-- The updates of phrases, one after another. -/
abbrev updateAll (phrases : List NftPhrase) (rule : FirewallRule) : FirewallRule :=
  phrases.foldl (fun rule p => p.update rule) rule

theorem update_portPhrases {rule : FirewallRule} (hprotocol : rule.protocol = .any)
    (hsource : rule.sourcePorts = {})
    (hdestination : rule.destinationPorts = {}) :
    updateAll r.portPhrases rule =
      { rule with
        protocol := r.protocol
        sourcePorts := r.sourcePorts
        destinationPorts := r.destinationPorts } := by
  obtain ⟨dialect, chain, action, jumpTarget, source, destination, sourcePorts,
      destinationPorts, protocol,
    interfaceIn, interfaceOut, state, comment, raw, line⟩ := rule
  subst hprotocol hsource hdestination
  by_cases hp : NftPhrase.Ported r.protocol
  · rw [portPhrases, dif_pos hp]
    rfl
  · obtain ⟨hany, hs, hd⟩ := r.protocol_common.resolve_left hp
    rw [portPhrases, dif_neg hp, hany, hs, hd]
    rfl

theorem update_limitPhrases {rule : FirewallRule} (hin : rule.interfaceIn = [])
    (hout : rule.interfaceOut = [])
    (hstate : rule.state = []) :
    updateAll r.limitPhrases rule =
      { rule with
        interfaceIn := r.interfaceIn, interfaceOut := r.interfaceOut, state := r.state } := by
  obtain ⟨dialect, chain, action, jumpTarget, source, destination, sourcePorts,
      destinationPorts, protocol,
    interfaceIn, interfaceOut, state, comment, raw, line⟩ := rule
  subst hin hout hstate
  rw [limitPhrases, updateAll, List.foldl_append, List.foldl_append]
  by_cases hi : r.interfaceIn = [] <;> by_cases ho : r.interfaceOut = [] <;> by_cases hs :
    r.state = []
  all_goals
    simp only [hi, ho, hs, dif_pos, dif_neg, not_false_eq_true]
    rfl

/-- The updates of all phrases make the rule. -/
theorem update_phrases (n : Nat) :
    updateAll r.phrases { raw := r.nftText, line := n, dialect := .nftables } = r.nftParsed n := by
  obtain ⟨action, haction, -⟩ := r.target_word.action_known
  have hname : parseFirewallAction r.targetName.toList = some action := by
    rw [← r.target_eq]
    exact haction
  rw [phrases, updateAll, List.foldl_append, List.foldl_append, List.foldl_append,
    List.foldl_append]
  rw [show List.foldl _ _ r.portPhrases = _ from r.update_portPhrases rfl rfl rfl,
    show List.foldl _ _ r.limitPhrases = _ from r.update_limitPhrases rfl rfl rfl]
  rw [nftParsed, WrittenRule.parsed, WrittenRule.action, r.target_eq, hname]
  simp only [List.foldl_cons, List.foldl_nil, NftPhrase.target, hname]
  rfl

/-- **An `add rule` line is parsed to its parts.** -/
theorem parseNftablesRule_nftText (n : Nat) :
    parseNftablesRule r.nftText n = .ok (r.nftParsed n) := by
  obtain ⟨action, haction, hknown⟩ := r.target_word.action_known
  have hparsed : (r.nftParsed n).action = action := by
    rw [nftParsed, WrittenRule.parsed, WrittenRule.action, haction]
    rfl
  have hne : r.phrases ≠ [] := by simp [phrases]
  rw [nftText, parseNftablesRule_nftLineOf hne]
  show checkNftablesRule r.nftText
      (updateAll r.phrases { raw := r.nftText, line := n, dialect := .nftables }) = _
  rw [update_phrases, checkNftablesRule,
    if_neg (show (r.nftParsed n).chain ≠ .unknown from r.chain_known),
    if_neg (hparsed ▸ hknown)]

/-! ## Lines -/

theorem clean_nftText : trim (removeComment r.nftText) = r.nftText :=
  clean_nftLineOf (by simp [phrases])

theorem exists_nftText : ∃ rest, r.nftText = "add rule".toList ++ rest := by
  have hspace : "add rule".toList = "add".toList ++ ([' '] ++ "rule".toList) := rfl
  obtain ⟨tail, htail⟩ : ∃ tail, phraseTokens r.phrases = "add".toList ::
      "rule".toList :: tail := by
    rw [phrases, phraseTokens, List.append_assoc, List.append_assoc, List.append_assoc,
      List.flatMap_append]
    exact ⟨_, rfl⟩
  rw [nftText, nftLineOf, htail, intercalate_cons_eq, List.flatMap_cons, hspace]
  exact ⟨tail.flatMap ([' '] ++ ·), by simp only [List.append_assoc]⟩

theorem nftText_ne_nil : r.nftText ≠ [] := by
  obtain ⟨rest, hrest⟩ := r.exists_nftText
  rw [hrest]
  exact List.cons_ne_nil _ _

/-- The line is taken for an nftables line. -/
theorem dialect_nftText : iptablesLine r.nftText = false ∧ nftablesLine r.nftText = true := by
  have happend : contains r.nftText " -A " = false := not_contains_append
  obtain ⟨rest, hrest⟩ := r.exists_nftText
  constructor
  · rw [iptablesLine, happend, hrest]
    rfl
  · have hstarts : startsWith r.nftText "add rule".toList = true := by
      rw [hrest]
      exact List.isPrefixOf_iff_prefix.mpr (List.prefix_append _ _)
    rw [nftablesLine, hstarts]
    simp

theorem newline_notMem_nftText : '\n' ∉ r.nftText := by
  intro hmem
  obtain ⟨before, after, heq⟩ := List.append_of_mem hmem
  have hin : ['\n'] <:+: [' '].intercalate (phraseTokens r.phrases) := by
    rw [← nftLineOf, ← nftText, heq]
    exact ⟨before, after, by simp⟩
  obtain ⟨t, ht, hin⟩ := infix_intercalate (by decide) (List.cons_ne_nil _ _) hin
  have hspace := (mem_phraseTokens ht).noSpace '\n' (hin.subset List.mem_cons_self)
  exact absurd hspace (by decide)

end CommonRule

/-! ## The loop -/

/-- The rules of an iptables policy, each with the number of its line. -/
def iptRules (rules : List CommonRule) : List FirewallRule :=
  (rules.zipIdx 1).map fun l => l.1.parsed l.2

def nftRules (rules : List CommonRule) : List FirewallRule :=
  (rules.zipIdx 1).map fun l => l.1.nftParsed l.2

theorem nftRules_concat (rules : List CommonRule) (r : CommonRule) :
    nftRules (rules ++ [r]) = nftRules rules ++ [r.nftParsed (rules.length + 1)] := by
  rw [nftRules, List.zipIdx_append, List.map_append, List.zipIdx_singleton, List.map_singleton,
    Nat.add_comm 1]
  rfl

/-- **Step lemma.** -/
theorem PolicyScan.step_nftText (s : PolicyScan) (r : CommonRule) :
    s.step r.nftText =
      { n := s.n + 1
        ipt := s.ipt
        nft := s.nft + 1
        firewallRules := s.firewallRules ++ [r.nftParsed (s.n + 1)]
        diagnostics := s.diagnostics ++ validationNotes (r.nftParsed (s.n + 1)) } := by
  obtain ⟨hipt, hnft⟩ := r.dialect_nftText
  have hparse : parsePolicyLine r.nftText (s.n + 1) = .ok (r.nftParsed (s.n + 1)) := by
    rw [parsePolicyLine, hipt, hnft]
    exact r.parseNftablesRule_nftText (s.n + 1)
  unfold PolicyScan.step
  simp only [r.clean_nftText, lineRules, lineDiagnostics, hparse, hipt, hnft]
  rw [if_neg (by rw [List.isEmpty_iff]; exact r.nftText_ne_nil)]
  rfl

/-- **Run lemma.** -/
theorem policyMachine_nftText (rules : List CommonRule) :
    policyMachine.run (rules.map CommonRule.nftText) =
      { n := rules.length
        ipt := 0
        nft := rules.length
        firewallRules := nftRules rules
        diagnostics := (nftRules rules).flatMap validationNotes } := by
  induction rules using List.reverseRecOn with
  | nil => rfl
  | append_singleton rules r ih =>
    rw [List.map_append, List.map_singleton, Machine.run_concat, ih, policyMachine_step,
      PolicyScan.step_nftText,
      nftRules_concat, List.flatMap_append, List.flatMap_singleton, List.length_append,
        List.length_singleton]

section
variable {rules : List CommonRule} (hne : rules ≠ [])
include hne

theorem nftRules_ne_nil : nftRules rules ≠ [] := by
  simpa [nftRules] using hne

theorem scannedFile_nftText :
    scannedFile (textOf (rules.map CommonRule.nftText)) =
      { dominantDialect := .nftables
        firewallRules := nftRules rules
        diagnostics := (nftRules rules).flatMap validationNotes } := by
  have hlines : getlines '\n' (textOf (rules.map CommonRule.nftText)) =
      rules.map CommonRule.nftText := by
    refine getlines_textOf fun line hline => ?_
    obtain ⟨r, -, rfl⟩ := List.mem_map.mp hline
    exact r.newline_notMem_nftText
  have hcount : ¬ rules.length ≤ 0 := by
    rw [Nat.le_zero, List.length_eq_zero_iff]
    exact hne
  unfold scannedFile
  simp only [hlines, policyMachine_nftText]
  rw [if_neg (by rw [List.isEmpty_iff]; exact nftRules_ne_nil hne), if_neg hcount]

theorem scannedFile_iptText :
    scannedFile (textOf (rules.map fun r => r.text)) =
      { dominantDialect := .iptables
        firewallRules := iptRules rules
        diagnostics := (iptRules rules).flatMap validationNotes } := by
  have hlines : (rules.map fun r => PolicyLine.rule r.toWrittenRule).map PolicyLine.text =
      rules.map fun r => r.text := by
    rw [List.map_map]
    rfl
  have hrules : writtenRules (rules.map fun r => PolicyLine.rule r.toWrittenRule) =
      iptRules rules := by
    rw [writtenRules, iptRules, List.zipIdx_map, List.flatMap_map]
    exact List.map_eq_flatMap.symm
  have hscanned := scannedFile_written (rules.map fun r => PolicyLine.rule r.toWrittenRule)
    (by rw [hrules]; simpa [iptRules] using hne)
  rwa [hlines, hrules] at hscanned

end

/-! ## The audit -/

/-- The rule without what its dialect tells. -/
def FirewallRule.undialected (r : FirewallRule) : FirewallRule :=
  { r with dialect := .unknown, raw := [] }

/-- What the checks and the reviews of the rules have to say. -/
def auditNotes (rules : List FirewallRule) : Diagnostics :=
  rules.flatMap validationNotes ++
    reviewDiagnostics "policy.duplicate" (duplicateRules { firewallRules := rules }) ++
    reviewDiagnostics "policy.shadow" (shadowedRules { firewallRules := rules }) ++
    reviewDiagnostics "policy.order" (orderingWarnings { firewallRules := rules })

/-- The normal form behind the name of the dialect. -/
def normalTail (r : FirewallRule) : Str := (normalFields r).tail.flatMap ([' '] ++ ·)

theorem normalizeFirewallRule_eq_tail (r : FirewallRule) :
    normalizeFirewallRule r = dialectName r.dialect ++ normalTail r := by
  rw [normalizeFirewallRule_eq, normalFields, intercalate_cons_eq]
  rfl

/-- What stands in front of all texts alike does not change their order. -/
theorem compare_append_left (front a b : Str) :
    compare (front ++ a) (front ++ b) = compare a b := by
  induction front with
  | nil => rfl
  | cons c front ih =>
    rw [List.compare_eq_compareLex] at ih ⊢
    rw [List.cons_append, List.cons_append, List.compareLex_cons_cons, Std.ReflOrd.compare_self]
    exact ih

/-- The reports of duplicates in a policy of one dialect. -/
theorem duplicateRules_of_dialect {rules : List FirewallRule} {dialect : FirewallDialect}
    (h : ∀ r ∈ rules, r.dialect = dialect) :
    duplicateRules { firewallRules := rules } =
      (fileAll (rules.map fun r => (normalTail r, r.line))).toList.flatMap fun kv =>
        if 1 < kv.2.length then ["duplicate firewall rule at line ".toList ++
          natToString (kv.2.headD 0)] else [] := by
  have hentries : (rules.map fun r => (normalizeFirewallRule r, r.line)) =
      (rules.map fun r => (normalTail r, r.line)).map fun e =>
        (dialectName dialect ++ e.1, e.2) := by
    rw [List.map_map]
    refine List.map_congr_left fun r hr => ?_
    rw [normalizeFirewallRule_eq_tail, h r hr]
    rfl
  rw [duplicateRules]
  simp only [hentries, toList_fileAll_map (compare_append_left _), List.flatMap_map]

theorem shadowedFrom_undialected (rules : List FirewallRule) :
    shadowedFrom (rules.map FirewallRule.undialected) = shadowedFrom rules := by
  induction rules with
  | nil => rfl
  | cons r rules ih =>
    rw [List.map_cons, shadowedFrom, ih, List.filter_map, List.map_map]
    rfl

theorem orderingFrom_undialected (seen : Direction → Bool) (rules : List FirewallRule) :
    orderingFrom seen (rules.map FirewallRule.undialected) = orderingFrom seen rules := by
  induction rules generalizing seen with
  | nil => rfl
  | cons r rules ih =>
    rw [List.map_cons, orderingFrom, ih]
    rfl

/-- **The audit does not depend on the dialect.** -/
theorem auditNotes_of_undialected {rules rules' : List FirewallRule}
    {dialect dialect' : FirewallDialect}
    (h : ∀ r ∈ rules, r.dialect = dialect) (h' : ∀ r ∈ rules', r.dialect = dialect')
    (heq : rules.map FirewallRule.undialected = rules'.map FirewallRule.undialected) :
    auditNotes rules = auditNotes rules' := by
  have hfields : ∀ {β : Type} (f : FirewallRule → β), (∀ r, f r.undialected = f r) →
      rules.map f = rules'.map f := by
    intro β f hf
    have hmap : ∀ items : List FirewallRule, (items.map FirewallRule.undialected).map f =
        items.map f := by
      intro items
      rw [List.map_map]
      exact List.map_congr_left fun r _ => hf r
    rw [← hmap rules, heq, hmap]
  have hnotes : rules.flatMap validationNotes = rules'.flatMap validationNotes := by
    rw [List.flatMap_def, List.flatMap_def, hfields validationNotes fun _ => rfl]
  have hduplicates : duplicateRules { firewallRules := rules } =
    duplicateRules { firewallRules := rules' } := by
    rw [duplicateRules_of_dialect h, duplicateRules_of_dialect h',
      hfields (fun r => (normalTail r, r.line)) fun _ => rfl]
  have hshadow : shadowedRules { firewallRules := rules } =
    shadowedRules { firewallRules := rules' } := by
    show shadowedFrom rules = shadowedFrom rules'
    rw [← shadowedFrom_undialected rules, heq, shadowedFrom_undialected]
  have hordering : orderingWarnings { firewallRules := rules } =
    orderingWarnings { firewallRules := rules' } := by
    show orderingFrom _ rules = orderingFrom _ rules'
    rw [← orderingFrom_undialected _ rules, heq, orderingFrom_undialected]
  rw [auditNotes, auditNotes, hnotes, hduplicates, hshadow, hordering]

theorem verdict_undialected (rules : List FirewallRule) (t : FlowTuple) :
    verdict (rules.map FirewallRule.undialected) t = verdict rules t := by
  rw [verdict, verdict, List.find?_map, Option.map_map]
  rfl

/-! ## Policies -/

theorem undialected_rules (rules : List CommonRule) :
    (nftRules rules).map FirewallRule.undialected =
      (iptRules rules).map FirewallRule.undialected := by
  rw [nftRules, iptRules, List.map_map, List.map_map]
  rfl

/-- **One policy in two dialects.** Rules that both dialects can express, written
line by line in either, are read back with the same fields; the checks, the reviews
and the verdict on every flow are the same. -/
theorem parsePolicyText_dialects (rules : List CommonRule) (hne : rules ≠ []) :
    let ipt := parsePolicyText (textOf (rules.map fun r => r.text))
    let nft := parsePolicyText (textOf (rules.map CommonRule.nftText))
    (ipt.dominantDialect = .iptables ∧ nft.dominantDialect = .nftables) ∧
      (ipt.firewallRules = iptRules rules ∧ nft.firewallRules = nftRules rules) ∧
      nft.diagnostics = ipt.diagnostics ∧ ∀ t, verdict nft.firewallRules t = verdict
        ipt.firewallRules t := by
  have hipt : parsePolicyText (textOf (rules.map fun r => r.text)) =
      { dominantDialect := .iptables, firewallRules := iptRules rules,
        diagnostics := auditNotes (iptRules rules) } := by
    rw [parsePolicyText, scannedFile_iptText hne]
    rfl
  have hnft : parsePolicyText (textOf (rules.map CommonRule.nftText)) =
      { dominantDialect := .nftables, firewallRules := nftRules rules,
        diagnostics := auditNotes (nftRules rules) } := by
    rw [parsePolicyText, scannedFile_nftText hne]
    rfl
  have hdialect : ∀ r ∈ iptRules rules, r.dialect = .iptables := by
    intro r hr
    obtain ⟨l, -, rfl⟩ := List.mem_map.mp hr
    rfl
  have hdialect' : ∀ r ∈ nftRules rules, r.dialect = .nftables := by
    intro r hr
    obtain ⟨l, -, rfl⟩ := List.mem_map.mp hr
    rfl
  rw [hipt, hnft]
  have hnotes := auditNotes_of_undialected hdialect' hdialect (undialected_rules rules)
  refine ⟨⟨rfl, rfl⟩, ⟨rfl, rfl⟩, hnotes, fun t => ?_⟩
  show verdict (nftRules rules) t = verdict (iptRules rules) t
  rw [← verdict_undialected, undialected_rules, verdict_undialected]

/-- Remote logins, which both dialects can let in. -/
def sshCommon : CommonRule where
  toWrittenRule := sshRule
  targetName := "ACCEPT"
  target_common := by decide
  target_eq := rfl
  protocol_common := Or.inl (Or.inl rfl)
  interfaceIn_noFlag := by decide
  interfaceIn_noQuotes := by decide
  interfaceOut_noFlag := by decide
  interfaceOut_noQuotes := by decide
  state_noFlag := by decide

example : sshCommon.nftText =
    ("add rule inet filter chain INPUT ip saddr 10.0.0.0/8 ip daddr any tcp sport any " ++
      "tcp dport 22 iif eth0 accept").toList := by decide

theorem parsePolicyText_dialects_ssh :
    (parsePolicyText (textOf [sshCommon.nftText])).firewallRules = [sshCommon.nftParsed 1] :=
  (parsePolicyText_dialects [sshCommon] (List.cons_ne_nil _ _)).2.1.2

end PacketGuard.Policy
