import PacketGuard.Policy.Firewall
import PacketGuard.Rules.Outcomes

/-! # What the firewall parsers can do

A turn of either token loop sets fields of the rule to values it has read
(`Updates`), or fails as an expression of the rule does (`ExprFailure`).
Whatever all updates keep, a parsed rule has.
-/
namespace PacketGuard.Policy
open PacketGuard.Core PacketGuard.Lib
open PacketGuard.Rules
  (PortExpr AddressExpr RuleProtocol parsePortExpr parseAddressExpr parseProtocol
  ExprFailure parsePortExpr_outcome parseAddressExpr_outcome)

/-- The changes that the tokens of a line can make to a rule. -/
inductive FirewallRule.Updates : FirewallRule → FirewallRule → Prop
  | same (r : FirewallRule) : Updates r r
  | trans {r s t : FirewallRule} : Updates r s → Updates s t → Updates r t
  | chain (r : FirewallRule) {value : Str} {c : Direction} :
      parseDirection value = some c → Updates r { r with chain := c }
  | protocol (r : FirewallRule) {value : Str} {p : RuleProtocol} :
      parseProtocol value = some p → Updates r { r with protocol := p }
  | source (r : FirewallRule) {value : Str} {a : AddressExpr} :
      parseAddressExpr value = .ok a → Updates r { r with source := a }
  | destination (r : FirewallRule) {value : Str} {a : AddressExpr} :
      parseAddressExpr value = .ok a → Updates r { r with destination := a }
  | sourcePorts (r : FirewallRule) {value : Str} {p : PortExpr} :
      parsePortExpr value = .ok p → Updates r { r with sourcePorts := p }
  | destinationPorts (r : FirewallRule) {value : Str} {p : PortExpr} :
      parsePortExpr value = .ok p → Updates r { r with destinationPorts := p }
  | interfaceIn (r : FirewallRule) (value : Str) : Updates r { r with interfaceIn := value }
  | interfaceOut (r : FirewallRule) (value : Str) : Updates r { r with interfaceOut := value }
  | state (r : FirewallRule) (value : Str) : Updates r { r with state := value }
  | comment (r : FirewallRule) (value : Str) : Updates r { r with comment := value }
  | jump (r : FirewallRule) (value target : Str) :
      Updates r { r with jumpTarget := target, action := (parseFirewallAction value).getD r.action }

namespace FirewallRule.Updates
variable {r s : FirewallRule}

theorem chainOf (r : FirewallRule) (value : Str) :
    r.Updates { r with chain := (parseDirection value).getD r.chain } := by
  cases h : parseDirection value with
  | none => exact .same r
  | some c => exact .chain r h

theorem protocolOf (r : FirewallRule) (value : Str) :
    r.Updates { r with protocol := (parseProtocol value).getD r.protocol } := by
  cases h : parseProtocol value with
  | none => exact .same r
  | some p => exact .protocol r h

/-- The line number, the text and the dialect are set before the tokens are read. -/
theorem origin (h : r.Updates s) : s.line = r.line ∧ s.raw = r.raw ∧ s.dialect = r.dialect := by
  induction h with
  | trans _ _ ih ih' => exact ⟨ih'.1.trans ih.1, ih'.2.1.trans ih.2.1, ih'.2.2.trans ih.2.2⟩
  | _ => exact ⟨rfl, rfl, rfl⟩

end FirewallRule.Updates

/-! ## One turn -/

/-- What one turn of a token loop does to a rule. -/
abbrev Turn (rule : FirewallRule) : Result (FirewallRule × Nat) → Prop :=
  Outcome (fun r => rule.Updates r.1) ExprFailure

section
variable {rule rule' : FirewallRule} {taken : Nat}

/-- A turn that reads an address into a field. -/
theorem turn_address (value : Str) {f : AddressExpr → FirewallRule}
    (hf : ∀ a, parseAddressExpr value = .ok a → rule.Updates (f a)) :
    Turn rule ((parseAddressExpr value).map fun a => (f a, taken)) :=
  (Outcome.self fun _ => (parseAddressExpr_outcome value).of_eq_error).map hf

/-- A turn that reads ports into a field. -/
theorem turn_ports (value : Str) {f : PortExpr → FirewallRule}
    (hf : ∀ p, parsePortExpr value = .ok p → rule.Updates (f p)) :
    Turn rule ((parsePortExpr value).map fun p => (f p, taken)) :=
  (Outcome.self fun _ => (parsePortExpr_outcome value).of_eq_error).map hf

/-- The tests of the loop body in order, one line for each. -/
theorem iptablesToken_turn (rule : FirewallRule) (tok : Str) (rest : List Str) :
    Turn rule (iptablesToken rule tok rest) := by
  unfold iptablesToken
  refine .ite (fun _ => .same rule) fun _ => ?_
  refine .ite (fun _ => .chainOf rule _) fun _ => ?_
  refine .ite (fun _ => .protocolOf rule _) fun _ => ?_
  refine .ite (fun _ => turn_address _ fun _ => .source rule) fun _ => ?_
  refine .ite (fun _ => turn_address _ fun _ => .destination rule) fun _ => ?_
  refine .ite (fun _ => turn_ports _ fun _ => .sourcePorts rule) fun _ => ?_
  refine .ite (fun _ => turn_ports _ fun _ => .destinationPorts rule) fun _ => ?_
  refine .ite (fun _ => .interfaceIn rule _) fun _ => ?_
  refine .ite (fun _ => .interfaceOut rule _) fun _ => ?_
  refine .ite (fun _ => ?_) fun _ => ?_
  · -- of the modules, only `state` and `conntrack` leave a trace
    show rule.Updates (ite _ _ _)
    split_ifs
    · exact .state rule _
    · exact .same rule
  refine .ite (fun _ => .state rule _) fun _ => ?_
  refine .ite (fun _ => .jump rule _ _) fun _ => ?_
  exact .ite (fun _ => .comment rule _) fun _ => .same rule

theorem nftablesToken_turn (rule : FirewallRule) (token : Str) (rest : List Str) :
    Turn rule (nftablesToken rule token rest) := by
  have hproto := FirewallRule.Updates.protocolOf rule (toLower token)
  unfold nftablesToken
  refine .ite (fun _ => .chainOf rule _) fun _ => ?_
  refine .ite (fun _ => .chainOf rule _) fun _ => ?_
  refine .ite (fun _ => ?_) fun _ => ?_
  · refine .ite (fun _ => turn_address _ fun _ => .source rule) fun _ => ?_
    exact .ite (fun _ => turn_address _ fun _ => .destination rule) fun _ => .same rule
  refine .ite (fun _ => ?_) fun _ => ?_
  · -- the protocol is set, whatever follows it
    refine .ite (fun _ => turn_ports _ fun _ hp => hproto.trans (.sourcePorts _ hp)) fun _ => ?_
    exact .ite (fun _ => turn_ports _ fun _ hp => hproto.trans (.destinationPorts _ hp)) fun _ =>
      hproto
  refine .ite (fun _ => .interfaceIn rule _) fun _ => ?_
  refine .ite (fun _ => .interfaceOut rule _) fun _ => ?_
  refine .ite (fun _ => .state rule _) fun _ => ?_
  refine .ite (fun _ => .jump rule _ _) fun _ => ?_
  exact .ite (fun _ => .comment rule _) fun _ => .same rule

end

/-! ## Whole lines -/

/-- The failures of a line in one of the two dialects. -/
inductive LineFailure : Status → Prop
  | expr {status : Status} : ExprFailure status → LineFailure status
  | emptyIptables : LineFailure (Status.failure "empty firewall rule".toList)
  | missingChain : LineFailure (Status.failure "iptables rule missing chain".toList)
  | missingJump : LineFailure (Status.failure "iptables rule missing jump action".toList)
  | emptyNftables : LineFailure (Status.failure "empty nftables rule".toList)
  | missingAction : LineFailure (Status.failure "nftables rule missing action".toList)

/-- Both loops: the rule is an update of the one they start with. -/
theorem scanTokens_updates {body : FirewallRule → Str → List Str → Result (FirewallRule × Nat)}
    (hbody : ∀ rule tok rest, Turn rule (body rule tok rest)) (rule : FirewallRule)
    (tokens : List Str) :
    Outcome rule.Updates LineFailure (scanTokens body rule 0 tokens) :=
  scanTokens_outcome
    (fun s tok rest hs => (hbody s tok rest).imp (fun _ => hs.trans) fun _ => .expr)
      (.same rule) 0 tokens

/-- The rule the iptables loop starts with. -/
def iptablesStart (line : Str) (n : Nat) : FirewallRule :=
  { raw := trim (removeComment line), line := n, dialect := .iptables }

/-- The rule the nftables loop starts with. -/
def nftablesStart (line : Str) (n : Nat) : FirewallRule :=
  { raw := trim (removeComment line), line := n, dialect := .nftables }

/-- A rule in the iptables dialect has a chain and an action. -/
theorem parseIptablesRule_outcome (line : Str) (n : Nat) :
    Outcome (fun r => (iptablesStart line n).Updates r ∧ r.chain ≠ .unknown ∧ r.action ≠ .unknown)
      LineFailure (parseIptablesRule line n) := by
  refine .ite (fun _ => .emptyIptables) fun _ => ?_
  refine (scanTokens_updates iptablesToken_turn (iptablesStart line n) _).bind fun r hr => ?_
  refine .ite (fun _ => .missingChain) fun hchain => ?_
  exact .ite (fun _ => .missingJump) fun haction => ⟨hr, hchain, haction⟩

/-- The chain of a rule in the nftables dialect may have been guessed, and may be
unknown. -/
theorem parseNftablesRule_outcome (line : Str) (n : Nat) :
    Outcome
      (fun r => ∃ s, (nftablesStart line n).Updates s ∧
        r = (if s.chain = .unknown then { s with chain := guessChain (trim (removeComment line)) }
          else s) ∧
        r.action ≠ .unknown)
      LineFailure (parseNftablesRule line n) := by
  refine .ite (fun _ => .emptyNftables) fun _ => ?_
  refine (scanTokens_updates nftablesToken_turn (nftablesStart line n) _).bind fun s hs => ?_
  exact .ite (fun _ => .missingAction) fun haction => ⟨s, hs, rfl, haction⟩

end PacketGuard.Policy
