import PacketGuard.Core.TextFile
import PacketGuard.Policy.Lines
import PacketGuard.Policy.OptionGroups
import PacketGuard.Rules.RoundTrip

/-! # Policies as they are written

A policy in the iptables dialect is written rule by rule, each on a line of its
own with a flag for every part.  Parsing the policy gives the rules back, with
the numbers of their lines, whatever other lines stand between them.
-/
namespace PacketGuard.Policy
open PacketGuard.Core PacketGuard.Lib
open PacketGuard.Rules
  (PortExpr AddressExpr RuleProtocol parsePortExpr parseAddressExpr parseProtocol protocolName
  parsePortExpr_toString parseAddressExpr_toString)

/-! ## Words -/

/-- A value that a flag can have. -/
structure Word (value : Str) : Prop where
  nonempty : value ≠ []
  noSpace : NoSpace value
  noBang : value ≠ ['!']
  noHash : '#' ∉ value
  noSlashes : ¬ "//".toList <:+: value

/-- What comment removal keeps has no comment in it, unless there are quotes. -/
theorem Uncommented.noComment {value : Str} (h : Uncommented value) (hdouble : '"' ∉ value)
    (hsingle : '\'' ∉ value) :
    '#' ∉ value ∧ ¬ "//".toList <:+: value := by
  have hunquoted : ∀ before after, value = before ++ after → Unquoted before := by
    intro before
    induction before using List.reverseRecOn with
    | nil => exact fun _ _ => .nil
    | append_singleton before c ih =>
      intro after heq
      have hc : c ∈ value := by simp [heq]
      refine .char (ih (c :: after) (by simp [heq])) fun hquote => ?_
      rcases hquote.1 with rfl | rfl
      · exact hdouble hc
      · exact hsingle hc
  have hnone := removeComment_eq_self_iff.mp h.removeComment_eq
  constructor
  · intro hhash
    obtain ⟨before, after, heq⟩ := List.append_of_mem hhash
    exact hnone before '#' after heq rfl (hunquoted before _ heq)
  · rintro ⟨before, after, heq⟩
    have hvalue : value = before ++ '/' :: '/' :: after := by
      rw [← heq]
      simp
    exact hnone before '/' ('/' :: after) hvalue rfl (hunquoted before _ hvalue)

theorem word_of_headerToken {value : Str} (h : Rules.HeaderToken value) (hdouble : '"' ∉ value)
    (hsingle : '\'' ∉ value) (hbang : value ≠ ['!']) : Word value := by
  obtain ⟨hhash, hslashes⟩ := Uncommented.noComment h.uncommented hdouble hsingle
  exact ⟨h.nonempty, h.noSpace, hbang, hhash, hslashes⟩

theorem word_of_letters {value : Str} (hne : value ≠ []) (h : value.all isAlnum = true) :
    Word value := by
  have hnot : ∀ c, isAlnum c = false → c ∉ value := by
    intro c hc hmem
    have hletter := List.all_eq_true.mp h c hmem
    rw [hc] at hletter
    cases hletter
  refine word_of_headerToken (Rules.headerToken_of_letters hne h) (hnot _ rfl) (hnot _ rfl) ?_
  rintro rfl
  cases h

/-- A list of addresses or ports is more than its mark of negation. -/
theorem marked_ne_bang {negated : Bool} {body : Str} (hne : body ≠ []) (hbang : '!' ∉ body) :
    (if negated then ['!'] else []) ++ body ≠ ['!'] := by
  cases negated with
  | false =>
    rintro rfl
    exact hbang (List.mem_singleton_self _)
  | true =>
    intro heq
    exact hne (List.cons_injective heq)

theorem word_ports {e : PortExpr} (h : e.Printable) : Word e.toString := by
  have htoken := Rules.headerToken_ports h
  obtain ⟨any, negated, ranges⟩ := e
  cases any with
  | true =>
    obtain ⟨hneg, -⟩ := h.ofAny rfl
    cases hneg
    show Word "any".toList
    exact word_of_letters (by decide) rfl
  | false =>
    have hlist := Rules.listText_ports h rfl
    have hchar : ∀ c, c ∈ [','].intercalate (ranges.map Rules.portRangeText) → isDigit c = true ∨
        c = ':' ∨ c = ',' := by
      intro c hc
      rcases Rules.ListText.mem_joined hc with rfl | ⟨p, hp, hc⟩
      · exact Or.inr (Or.inr rfl)
      · obtain ⟨r, -, rfl⟩ := List.mem_map.mp hp
        exact (Rules.mem_portRangeText hc).imp_right Or.inl
    have hnot : ∀ c, isDigit c = false → c ≠ ':' → c ≠ ',' →
        c ∉ [','].intercalate (ranges.map Rules.portRangeText) := by
      intro c hdigit hcolon hcomma hc
      rcases hchar c hc with hc | hc | hc
      · rw [hdigit] at hc
        cases hc
      · exact hcolon hc
      · exact hcomma hc
    refine word_of_headerToken htoken ?_ ?_
      (marked_ne_bang hlist.listPieces.joined_ne_nil (hnot '!' rfl (by decide) (by decide)))
    all_goals
      intro hmem
      rcases List.mem_append.mp hmem with hmem | hmem
      · cases negated <;> simp at hmem
      · exact hnot _ rfl (by decide) (by decide) hmem

theorem word_addresses {e : AddressExpr} (h : e.Printable) : Word e.toString := by
  have htoken := Rules.headerToken_addresses h
  obtain ⟨any, negated, ranges, vars⟩ := e
  cases any with
  | true =>
    obtain ⟨hneg, -, -⟩ := h.ofAny rfl
    cases hneg
    show Word "any".toList
    exact word_of_letters (by decide) rfl
  | false =>
    have hlist := Rules.listText_addresses h rfl
    have hnot : ∀ c, isAlnum c = false → c ∉ ['.', '/', '$', '_', ','] →
        c ∉ [','].intercalate (ranges.map CIDRRange.toString ++ vars) := by
      intro c hletter hmark hc
      simp only [List.mem_cons, List.not_mem_nil, or_false, not_or] at hmark
      obtain ⟨hdot, hslash, hdollar, hunder, hcomma⟩ := hmark
      rcases Rules.ListText.mem_joined hc with hc | ⟨p, hp, hc⟩
      · exact hcomma hc
      · rcases Rules.mem_addressText h hp hc with hc | hc | hc | hc | hc
        · rw [hletter] at hc
          cases hc
        · exact hdot hc
        · exact hslash hc
        · exact hdollar hc
        · exact hunder hc
    refine word_of_headerToken htoken ?_ ?_
      (marked_ne_bang hlist.listPieces.joined_ne_nil (hnot '!' rfl (by decide)))
    all_goals
      intro hmem
      rcases List.mem_append.mp hmem with hmem | hmem
      · cases negated <;> simp at hmem
      · exact hnot _ rfl (by decide) hmem

/-! ## Rules -/

/-- A rule as it is written.  The empty text stands for an interface or a state that is left out. -/
structure WrittenRule where
  chain : Direction
  protocol : RuleProtocol
  source : AddressExpr
  destination : AddressExpr
  sourcePorts : PortExpr
  destinationPorts : PortExpr
  interfaceIn : Str
  interfaceOut : Str
  state : Str
  target : Str
  chain_known : chain ≠ .unknown
  protocol_known : protocol ≠ .unknown
  source_printable : source.Printable
  destination_printable : destination.Printable
  sourcePorts_printable : sourcePorts.Printable
  destinationPorts_printable : destinationPorts.Printable
  interfaceIn_word : interfaceIn = [] ∨ Word interfaceIn
  interfaceOut_word : interfaceOut = [] ∨ Word interfaceOut
  state_word : state = [] ∨ Word state
  target_word : Word target

theorem isOneOf_of_mem {name : String} {names : List String} (h : name ∈ names) :
    isOneOf name.toList names = true :=
  List.any_eq_true.mpr ⟨name, h, beq_self_eq_true _⟩

def OptionGroup.ofWord (field : OptionField) {flag : String} (hflag : flag ∈ field.flags)
    {value : Str}
    (h : Word value) : OptionGroup :=
  ⟨field, flag.toList, value, isOneOf_of_mem hflag, h.nonempty, h.noSpace, h.noBang, h.noHash,
    h.noSlashes⟩

/-- A group that is left out when there is no value. -/
def optionalGroup (field : OptionField) {flag : String} (hflag : flag ∈ field.flags) (value : Str)
    (h : value = [] ∨ Word value) : List OptionGroup :=
  if hempty : value = [] then [] else [.ofWord field hflag (h.resolve_left hempty)]

namespace WrittenRule

theorem word_chain (r : WrittenRule) : Word (directionName r.chain) := by
  cases r.chain <;> exact word_of_letters (by decide) rfl

theorem word_protocol (r : WrittenRule) : Word (protocolName r.protocol) := by
  cases r.protocol <;> exact word_of_letters (by decide) rfl

/-- The flags that every rule has, each with its value. -/
def partGroups (r : WrittenRule) : List OptionGroup :=
  [.ofWord .chain (show "-A" ∈ _ from .head _) r.word_chain,
    .ofWord .protocol (show "-p" ∈ _ from .head _) r.word_protocol,
    .ofWord .source (show "-s" ∈ _ from .head _) (word_addresses r.source_printable),
    .ofWord .destination (show "-d" ∈ _ from .head _) (word_addresses r.destination_printable),
    .ofWord .sourcePorts (show "--sport" ∈ _ from .head _) (word_ports r.sourcePorts_printable),
    .ofWord .destinationPorts (show "--dport" ∈ _ from .head _)
      (word_ports r.destinationPorts_printable)]

def groups (r : WrittenRule) : List OptionGroup :=
  r.partGroups ++ optionalGroup .interfaceIn (show "-i" ∈ _ from .head _) r.interfaceIn
    r.interfaceIn_word ++
    optionalGroup .interfaceOut (show "-o" ∈ _ from .head _) r.interfaceOut r.interfaceOut_word ++
    optionalGroup .state (show "--state" ∈ _ from .head _) r.state r.state_word ++
    [.ofWord .jump (show "-j" ∈ _ from .head _) r.target_word]

def text (r : WrittenRule) : Str := lineOf r.groups

def action (r : WrittenRule) : FirewallAction := (parseFirewallAction r.target).getD .unknown

/-- The rule as it is parsed from line `n`. -/
def parsed (r : WrittenRule) (n : Nat) : FirewallRule where
  dialect := .iptables
  chain := r.chain
  action := r.action
  jumpTarget := r.target
  source := r.source
  destination := r.destination
  sourcePorts := r.sourcePorts
  destinationPorts := r.destinationPorts
  protocol := r.protocol
  interfaceIn := r.interfaceIn
  interfaceOut := r.interfaceOut
  state := r.state
  raw := r.text
  line := n

end WrittenRule

/-- What is left out is empty from the start. -/
theorem foldl_optionalGroup {field : OptionField} {flag : String} (hflag : flag ∈ field.flags)
    {value : Str}
    (h : value = [] ∨ Word value) {rule : FirewallRule} (hsame : field.update [] rule = rule) :
    (optionalGroup field hflag value h).foldl (fun rule g => g.field.update g.value rule) rule =
      field.update value rule := by
  by_cases hempty : value = []
  · rw [optionalGroup, dif_pos hempty, hempty]
    exact hsame.symm
  · rw [optionalGroup, dif_neg hempty]
    rfl

theorem check_optionalGroup {field : OptionField} {flag : String} {hflag : flag ∈ field.flags}
    {value : Str}
    {h : value = [] ∨ Word value} (hcheck : field.check value = .ok ()) :
    ∀ g ∈ optionalGroup field hflag value h, g.field.check g.value = .ok () := by
  intro g hg
  unfold optionalGroup at hg
  split at hg
  · cases hg
  · rw [List.mem_singleton.mp hg]
    exact hcheck

theorem Word.action_known {value : Str} (h : Word value) :
    ∃ action, parseFirewallAction value = some action ∧ action ≠ .unknown := by
  have hne : (toUpper (trim value)).isEmpty = false := by
    rw [trim_eq_self h.noSpace.trimmed, List.isEmpty_eq_false_iff]
    simpa [toUpper] using h.nonempty
  unfold parseFirewallAction
  simp only [hne, Bool.not_false, if_true]
  split_ifs
  all_goals exact ⟨_, rfl, by decide⟩

namespace WrittenRule

theorem check_groups (r : WrittenRule) :
    (forM r.groups fun g => g.field.check g.value : Result Unit) = .ok () := by
  refine forM_eq_ok_iff.mpr fun g hg => ?_
  simp only [groups, partGroups, List.mem_append, List.mem_cons, List.not_mem_nil, or_false] at hg
  rcases hg with (((hg | hg) | hg) | hg) | rfl
  · rcases hg with rfl | rfl | rfl | rfl | rfl | rfl
    · rfl
    · rfl
    · simp only [OptionGroup.ofWord, OptionField.check,
        parseAddressExpr_toString r.source_printable]
      rfl
    · simp only [OptionGroup.ofWord, OptionField.check,
        parseAddressExpr_toString r.destination_printable]
      rfl
    · simp only [OptionGroup.ofWord, OptionField.check,
        parsePortExpr_toString r.sourcePorts_printable]
      rfl
    · simp only [OptionGroup.ofWord, OptionField.check,
        parsePortExpr_toString r.destinationPorts_printable]
      rfl
  · exact check_optionalGroup rfl g hg
  · exact check_optionalGroup rfl g hg
  · exact check_optionalGroup rfl g hg
  · rfl

/-- The rule after the flags that every rule has. -/
def partly (r : WrittenRule) (n : Nat) : FirewallRule :=
  { r.parsed n with
    interfaceIn := [], interfaceOut := [], state := [], jumpTarget := [], action := .unknown }

theorem update_partGroups (r : WrittenRule) (n : Nat) :
    r.partGroups.foldl (fun rule g => g.field.update g.value rule)
      { raw := r.text, line := n, dialect := .iptables } =
      r.partly n := by
  have hchain : (parseDirection (directionName r.chain)).getD .unknown = r.chain := by
    cases r.chain <;> rfl
  have hprotocol : (parseProtocol (protocolName r.protocol)).getD .any = r.protocol := by
    have hknown := r.protocol_known
    cases hprotocol : r.protocol <;> first | rfl | exact absurd hprotocol hknown
  simp only [partGroups, List.foldl_cons, List.foldl_nil, OptionGroup.ofWord, OptionField.update,
    hchain, hprotocol,
    parseAddressExpr_toString r.source_printable, parseAddressExpr_toString r.destination_printable,
    parsePortExpr_toString r.sourcePorts_printable,
      parsePortExpr_toString r.destinationPorts_printable]
  rfl

/-- The updates of all groups make the rule. -/
theorem update_groups (r : WrittenRule) (n : Nat) :
    r.groups.foldl (fun rule g => g.field.update g.value rule)
      { raw := r.text, line := n, dialect := .iptables } =
      r.parsed n := by
  have hin : (optionalGroup .interfaceIn (show "-i" ∈ _ from .head _) r.interfaceIn
      r.interfaceIn_word).foldl
      (fun rule g => g.field.update g.value rule) (r.partly n) =
        { r.partly n with interfaceIn := r.interfaceIn } :=
    foldl_optionalGroup _ r.interfaceIn_word rfl
  have hout : (optionalGroup .interfaceOut (show "-o" ∈ _ from .head _) r.interfaceOut
      r.interfaceOut_word).foldl
      (fun rule g => g.field.update g.value rule) { r.partly n with interfaceIn := r.interfaceIn } =
        { r.partly n with interfaceIn := r.interfaceIn, interfaceOut := r.interfaceOut } :=
    foldl_optionalGroup _ r.interfaceOut_word rfl
  have hstate : (optionalGroup .state (show "--state" ∈ _ from .head _) r.state r.state_word).foldl
      (fun rule g => g.field.update g.value rule)
      { r.partly n with interfaceIn := r.interfaceIn, interfaceOut := r.interfaceOut } =
        { r.partly n with
          interfaceIn := r.interfaceIn, interfaceOut := r.interfaceOut, state := r.state } :=
    foldl_optionalGroup _ r.state_word rfl
  rw [groups, List.foldl_append, List.foldl_append, List.foldl_append, List.foldl_append,
    update_partGroups, hin, hout, hstate]
  rfl

/-- **A written rule is parsed to its parts.** -/
theorem parseIptablesRule_text (r : WrittenRule) (n : Nat) :
    parseIptablesRule r.text n = .ok (r.parsed n) := by
  have hne : r.groups ≠ [] := by simp [groups]
  obtain ⟨action, haction, hknown⟩ := r.target_word.action_known
  have hparsed : (r.parsed n).action = action := by
    rw [parsed, WrittenRule.action, haction]
    rfl
  rw [text, parseIptablesRule_lineOf hne, check_groups]
  show checkIptablesRule (r.groups.foldl _ { raw := r.text, line := n, dialect := .iptables }) = _
  rw [update_groups, checkIptablesRule,
    if_neg (show (r.parsed n).chain ≠ .unknown from r.chain_known),
    if_neg (hparsed ▸ hknown)]

end WrittenRule

/-! ## Lines -/

theorem newline_notMem_lineOf (groups : List OptionGroup) : '\n' ∉ lineOf groups := by
  intro hmem
  obtain ⟨before, after, heq⟩ := List.append_of_mem hmem
  have hin : ['\n'] <:+: [' '].intercalate (groupTokens groups) :=
    ⟨before, after, by rw [← lineOf, heq]; simp⟩
  obtain ⟨t, ht, hin⟩ := infix_intercalate (by decide) (List.cons_ne_nil _ _) hin
  have hspace := (mem_groupTokens ht).1 '\n' (hin.subset List.mem_cons_self)
  exact absurd hspace (by decide)

namespace WrittenRule

theorem clean_text (r : WrittenRule) : trim (removeComment r.text) = r.text := by
  rw [text, removeComment_lineOf]
  exact trim_eq_self (trimmed_intercalate (by simp [groups, partGroups, groupTokens]) fun t ht =>
    ⟨(mem_groupTokens ht).1, (mem_groupTokens ht).2.1⟩)

/-- The line starts with the flag of the chain. -/
theorem exists_text (r : WrittenRule) : ∃ rest, r.text = "-A ".toList ++ rest := by
  have hspace : "-A ".toList = "-A".toList ++ [' '] := rfl
  rw [text, lineOf, groupTokens, groups, partGroups, List.append_assoc, List.append_assoc,
    List.append_assoc,
    List.cons_append, List.flatMap_cons, List.cons_append, List.cons_append, List.nil_append,
    List.intercalate_cons_cons, hspace, List.append_assoc]
  exact ⟨_, rfl⟩

theorem iptablesLine_text (r : WrittenRule) : iptablesLine r.text = true := by
  obtain ⟨rest, hrest⟩ := r.exists_text
  have hstarts : startsWith r.text "-A ".toList = true := by
    rw [hrest]
    exact List.isPrefixOf_iff_prefix.mpr (List.prefix_append _ _)
  rw [iptablesLine, hstarts, Bool.or_true, Bool.true_or]

theorem text_ne_nil (r : WrittenRule) : r.text ≠ [] := by
  obtain ⟨rest, hrest⟩ := r.exists_text
  rw [hrest]
  exact List.cons_ne_nil _ _

end WrittenRule

/-- A line of a policy: a rule, or another line, which belongs to neither dialect. -/
inductive PolicyLine
  | rule (r : WrittenRule)
  | other (line : Str) (oneLine : '\n' ∉ line) (unknown : ¬ Recognised (trim (removeComment line)))

namespace PolicyLine

def text : PolicyLine → Str
  | rule r => r.text
  | other line _ _ => line

/-- The rule that line `n` contributes. -/
def parsed (l : PolicyLine) (n : Nat) : List FirewallRule :=
  match l with
  | rule r => [r.parsed n]
  | other _ _ _ => []

theorem newline_notMem_text (l : PolicyLine) : '\n' ∉ l.text := by
  cases l with
  | rule r => exact newline_notMem_lineOf r.groups
  | other line oneLine unknown => exact oneLine

end PolicyLine

/-- The rules of the lines, with their line numbers. -/
def writtenRules (lines : List PolicyLine) : List FirewallRule := (lines.zipIdx 1).flatMap fun l =>
  l.1.parsed l.2

/-- What the check of a rule has to say, with the number of its line. -/
def validationNotes (rule : FirewallRule) : Diagnostics :=
  (validateFirewallRule rule).flatMap fun w => Diagnostics.warn "policy.validate".toList w rule.line

theorem writtenRules_concat (lines : List PolicyLine) (l : PolicyLine) :
    writtenRules (lines ++ [l]) = writtenRules lines ++ l.parsed (lines.length + 1) := by
  rw [writtenRules, List.zipIdx_append, List.flatMap_append, List.zipIdx_singleton,
    List.flatMap_singleton, Nat.add_comm 1]
  rfl

/-! ## The loop -/

/-- **Step lemma**, for a rule. -/
theorem PolicyScan.step_rule (s : PolicyScan) (r : WrittenRule) :
    s.step r.text =
      { n := s.n + 1
        ipt := s.ipt + 1
        nft := s.nft
        firewallRules := s.firewallRules ++ [r.parsed (s.n + 1)]
        diagnostics := s.diagnostics ++ validationNotes (r.parsed (s.n + 1)) } := by
  have hparse : parsePolicyLine r.text (s.n + 1) = .ok (r.parsed (s.n + 1)) := by
    rw [parsePolicyLine, if_pos r.iptablesLine_text, r.parseIptablesRule_text]
  unfold PolicyScan.step
  simp only [r.clean_text, lineRules, lineDiagnostics, hparse, r.iptablesLine_text]
  rw [if_neg (by rw [List.isEmpty_iff]; exact r.text_ne_nil)]
  rfl

/-- **Step lemma**, for a line of neither dialect. -/
theorem PolicyScan.step_other (s : PolicyScan) {line : Str}
    (h : ¬ Recognised (trim (removeComment line))) :
    s.step line = { s with n := s.n + 1 } := by
  obtain ⟨hipt, hnft⟩ := not_or.mp h
  rw [Bool.not_eq_true] at hipt hnft
  have hparse : parsePolicyLine (trim (removeComment line)) (s.n + 1) = failure "unparsed" := by
    rw [parsePolicyLine, hipt, hnft]
    rfl
  have hrules : lineRules (s.n + 1) (trim (removeComment line)) = [] := by
    rw [lineRules, hparse]
    rfl
  have hdiagnostics : lineDiagnostics (s.n + 1) (trim (removeComment line)) = [] := by
    rw [lineDiagnostics, hparse]
    rfl
  unfold PolicyScan.step
  by_cases hempty : (trim (removeComment line)).isEmpty
  · exact if_pos hempty
  · simp only [hempty, hrules, hdiagnostics, hipt, hnft, List.append_nil]
    rfl

theorem policyMachine_step (s : PolicyScan) (line : Str) :
    policyMachine.step s line = s.step line :=
  rfl

/-- **Run lemma.** -/
theorem policyMachine_written (lines : List PolicyLine) :
    ∃ ipt, policyMachine.run (lines.map PolicyLine.text) =
      { n := lines.length
        ipt
        firewallRules := writtenRules lines
        diagnostics := (writtenRules lines).flatMap validationNotes } := by
  induction lines using List.reverseRecOn with
  | nil => exact ⟨0, rfl⟩
  | append_singleton lines l ih =>
    obtain ⟨ipt, ih⟩ := ih
    rw [List.map_append, List.map_singleton, Machine.run_concat, ih, writtenRules_concat,
      List.flatMap_append, List.length_append, List.length_singleton]
    cases l with
    | rule r =>
      refine ⟨ipt + 1, ?_⟩
      rw [policyMachine_step, PolicyLine.text, PolicyScan.step_rule]
      simp [PolicyLine.parsed]
    | other line oneLine unknown =>
      refine ⟨ipt, ?_⟩
      rw [policyMachine_step, PolicyLine.text, PolicyScan.step_other _ unknown]
      simp [PolicyLine.parsed]

/-- What the loop over the lines leaves behind. -/
theorem scannedFile_written (lines : List PolicyLine) (hrules : writtenRules lines ≠ []) :
    scannedFile (textOf (lines.map PolicyLine.text)) =
      { dominantDialect := .iptables
        firewallRules := writtenRules lines
        diagnostics := (writtenRules lines).flatMap validationNotes } := by
  have hlines : getlines '\n' (textOf (lines.map PolicyLine.text)) = lines.map PolicyLine.text := by
    refine getlines_textOf fun line hline => ?_
    obtain ⟨l, -, rfl⟩ := List.mem_map.mp hline
    exact l.newline_notMem_text
  obtain ⟨ipt, hrun⟩ := policyMachine_written lines
  unfold scannedFile
  simp only [hlines, hrun]
  rw [if_neg (by rwa [List.isEmpty_iff]), if_pos (Nat.zero_le ipt)]

/-- **A policy that is written rule by rule is read back**: the rules in order, each
from its line, with what their checks and the reviews have to say and nothing
else. -/
theorem parsePolicyText_written (lines : List PolicyLine) (hrules : writtenRules lines ≠ []) :
    let scanned : PolicyFile :=
  { dominantDialect := .iptables, firewallRules := writtenRules lines }
    parsePolicyText (textOf (lines.map PolicyLine.text)) =
      { scanned with
        diagnostics := (writtenRules lines).flatMap validationNotes ++
          reviewDiagnostics "policy.duplicate" (duplicateRules scanned) ++
          reviewDiagnostics "policy.shadow" (shadowedRules scanned) ++
          reviewDiagnostics "policy.order" (orderingWarnings scanned) } := by
  rw [parsePolicyText, scannedFile_written lines hrules]
  rfl

/-- Remote logins are let in, from a private network. -/
def sshRule : WrittenRule where
  chain := .input
  protocol := .tcp
  source := { any := false, ranges := [⟨⟨0x0a000000⟩, 8⟩] }
  destination := {}
  sourcePorts := {}
  destinationPorts := { any := false, ranges := [(22, 22)] }
  interfaceIn := "eth0".toList
  interfaceOut := []
  state := []
  target := "ACCEPT".toList
  chain_known := by decide
  protocol_known := by decide
  source_printable := ⟨by decide, by decide, by decide, fun _ hv => absurd hv List.not_mem_nil⟩
  destination_printable := ⟨by decide, by decide, by decide, fun _ hv => absurd hv List.not_mem_nil⟩
  sourcePorts_printable := ⟨by decide, by decide, by decide⟩
  destinationPorts_printable := ⟨by decide, by decide, by decide⟩
  interfaceIn_word := Or.inr (word_of_letters (by decide) rfl)
  interfaceOut_word := Or.inl rfl
  state_word := Or.inl rfl
  target_word := word_of_letters (by decide) rfl

/-- The rule behind a line with a comment. -/
theorem parsePolicyText_written_ssh :
    (parsePolicyText (textOf ["# logins".toList, sshRule.text])).firewallRules =
      [sshRule.parsed 2] := by
  have hwritten := parsePolicyText_written [.other "# logins".toList (by decide) not_recognised_nil,
    .rule sshRule]
    (List.cons_ne_nil _ _)
  exact congrArg PolicyFile.firewallRules hwritten

end PacketGuard.Policy
