import PacketGuard.Lib.TokenScan
import PacketGuard.Rules.Rule

/-! Firewall rules: the line parsers of both dialects, the check of a parsed
rule, its normal form and the match of a connection (`policy/policy.cpp`). -/
namespace PacketGuard.Policy
open PacketGuard.Core PacketGuard.Lib
open PacketGuard.Rules
  (PortExpr AddressExpr RuleProtocol parsePortExpr parseAddressExpr parseProtocol
  protocolName)

inductive FirewallDialect
  | iptables
  | nftables
  | genericPolicy
  | unknown
  deriving DecidableEq, Repr

inductive FirewallAction
  | accept
  | drop
  | reject
  | log
  | return_
  | jump
  | unknown
  deriving DecidableEq, Repr

inductive Direction
  | input
  | output
  | forward
  | prerouting
  | postrouting
  | unknown
  deriving DecidableEq, Repr

structure FirewallRule where
  dialect : FirewallDialect := .unknown
  chain : Direction := .unknown
  action : FirewallAction := .unknown
  jumpTarget : Str := []
  source : AddressExpr := {}
  destination : AddressExpr := {}
  sourcePorts : PortExpr := {}
  destinationPorts : PortExpr := {}
  protocol : RuleProtocol := .any
  interfaceIn : Str := []
  interfaceOut : Str := []
  state : Str := []
  comment : Str := []
  raw : Str := []
  line : Nat := 0
  deriving DecidableEq, Repr

/-! ## Names -/

def dialectName : FirewallDialect → Str
  | .iptables => "iptables".toList
  | .nftables => "nftables".toList
  | .genericPolicy => "generic-policy".toList
  | .unknown => "unknown".toList

def actionName : FirewallAction → Str
  | .accept => "ACCEPT".toList
  | .drop => "DROP".toList
  | .reject => "REJECT".toList
  | .log => "LOG".toList
  | .return_ => "RETURN".toList
  | .jump => "JUMP".toList
  | .unknown => "UNKNOWN".toList

def directionName : Direction → Str
  | .input => "INPUT".toList
  | .output => "OUTPUT".toList
  | .forward => "FORWARD".toList
  | .prerouting => "PREROUTING".toList
  | .postrouting => "POSTROUTING".toList
  | .unknown => "UNKNOWN".toList

/-- `tok == a || tok == b || ...`. -/
def isOneOf (tok : Str) (names : List String) : Bool := names.any fun name => name.toList == tok

def parseDirection (token : Str) : Option Direction :=
  let v := toUpper (trim token)
  if isOneOf v ["INPUT", "IN", "INPUTHOOK"] then some .input
  else if isOneOf v ["OUTPUT", "OUT", "OUTPUTHOOK"] then some .output
  else if isOneOf v ["FORWARD", "FWD"] then some .forward
  else if isOneOf v ["PREROUTING"] then some .prerouting
  else if isOneOf v ["POSTROUTING"] then some .postrouting
  else none

def parseFirewallAction (token : Str) : Option FirewallAction :=
  let v := toUpper (trim token)
  if isOneOf v ["ACCEPT", "ALLOW"] then some .accept
  else if isOneOf v ["DROP", "DENY"] then some .drop
  else if isOneOf v ["REJECT"] then some .reject
  else if isOneOf v ["LOG"] then some .log
  else if isOneOf v ["RETURN"] then some .return_
  else if !v.isEmpty then some .jump
  else none

/-! ## The iptables dialect -/

/-- What `next_value` returns, the empty string at the end of the line. -/
def nextValue (rest : List Str) : Str := rest.headD []

/-- How many tokens `next_value` takes. -/
def nextTaken (rest : List Str) : Nat := if rest.isEmpty then 0 else 1

/-- One turn of the loop of `parse_iptables_rule`. -/
def iptablesToken (rule : FirewallRule) (tok : Str)
    (rest : List Str) : Result (FirewallRule × Nat) :=
  let value := nextValue rest
  let taken := nextTaken rest
  if isOneOf tok ["iptables", "ip6tables"] then .ok (rule, 0)
  else if isOneOf tok ["-A", "--append", "-I", "--insert"] then
    .ok ({ rule with chain := (parseDirection value).getD rule.chain }, taken)
  else if isOneOf tok ["-p", "--protocol"] then
    .ok ({ rule with protocol := (parseProtocol value).getD rule.protocol }, taken)
  else if isOneOf tok ["-s", "--source"] then
    (parseAddressExpr value).map fun a => ({ rule with source := a }, taken)
  else if isOneOf tok ["-d", "--destination"] then
    (parseAddressExpr value).map fun a => ({ rule with destination := a }, taken)
  else if isOneOf tok ["--sport", "--source-port", "--sports"] then
    (parsePortExpr value).map fun p => ({ rule with sourcePorts := p }, taken)
  else if isOneOf tok ["--dport", "--destination-port", "--dports"] then
    (parsePortExpr value).map fun p => ({ rule with destinationPorts := p }, taken)
  else if isOneOf tok ["-i", "--in-interface"] then .ok ({ rule with interfaceIn := value }, taken)
  else if isOneOf tok ["-o", "--out-interface"]
    then .ok ({ rule with interfaceOut := value }, taken)
  else if isOneOf tok ["-m"] then
    .ok (if isOneOf value ["state", "conntrack"] then { rule with state := value } else rule, taken)
  else if isOneOf tok ["--state", "--ctstate"] then .ok ({ rule with state := value }, taken)
  else if isOneOf tok ["-j", "--jump"] then
    .ok ({ rule with jumpTarget := value, action := (parseFirewallAction value).getD rule.action },
      taken)
  else if isOneOf tok ["--comment"] then .ok ({ rule with comment := stripQuotes value }, taken)
  else .ok (rule, 0)

/-- The checks at the end of `parse_iptables_rule`. -/
def checkIptablesRule (rule : FirewallRule) : Result FirewallRule :=
  if rule.chain = .unknown then failure "iptables rule missing chain"
  else if rule.action = .unknown then failure "iptables rule missing jump action"
  else .ok rule

def parseIptablesRule (line : Str) (lineNumber : Nat := 0) : Result FirewallRule :=
  let clean := trim (removeComment line)
  if clean.isEmpty then failure "empty firewall rule"
  else
    let rule : FirewallRule := { raw := clean, line := lineNumber, dialect := .iptables }
    (scanTokens iptablesToken rule 0 (splitWs clean)).bind checkIptablesRule

/-! ## The nftables dialect -/

/-- One turn of the loop of `parse_nftables_rule`. -/
def nftablesToken (rule : FirewallRule) (token : Str) (rest : List Str) :
    Result (FirewallRule × Nat) :=
  let tok := toLower token
  let next := rest.getD 0 []
  let second := rest.getD 1 []
  if isOneOf tok ["chain"] ∧ 1 ≤ rest.length then
    .ok ({ rule with chain := (parseDirection next).getD rule.chain }, 1)
  -- the direction behind `hook` and `type` is not taken
  else if isOneOf tok ["hook", "type"] ∧ 1 ≤ rest.length then
    .ok ({ rule with chain := (parseDirection next).getD rule.chain }, 0)
  else if isOneOf tok ["ip"] ∧ 2 ≤ rest.length then
    let field := toLower next
    if isOneOf field ["saddr"] then
      (parseAddressExpr second).map fun a => ({ rule with source := a }, 2)
    else if isOneOf field ["daddr"] then
      (parseAddressExpr second).map fun a => ({ rule with destination := a }, 2)
    else .ok (rule, 1)
  else if isOneOf tok ["tcp", "udp"] ∧ 2 ≤ rest.length then
    let rule := { rule with protocol := (parseProtocol tok).getD rule.protocol }
    let field := toLower next
    if isOneOf field ["sport"] then
      (parsePortExpr second).map fun p => ({ rule with sourcePorts := p }, 2)
    else if isOneOf field ["dport"] then
      (parsePortExpr second).map fun p => ({ rule with destinationPorts := p }, 2)
    else .ok (rule, 1)
  else if isOneOf tok ["iif", "iifname"] then
    .ok ({ rule with interfaceIn := stripQuotes (nextValue rest) }, nextTaken rest)
  else if isOneOf tok ["oif", "oifname"] then
    .ok ({ rule with interfaceOut := stripQuotes (nextValue rest) }, nextTaken rest)
  else if isOneOf tok ["ct"] ∧ 2 ≤ rest.length ∧ isOneOf (toLower next) ["state"] then
    .ok ({ rule with state := second }, 2)
  else if isOneOf tok ["accept", "drop", "reject", "log", "return"] then
    .ok ({ rule with
      action := (parseFirewallAction tok).getD rule.action, jumpTarget := toUpper tok }, 0)
  else if isOneOf tok ["comment"] then
    .ok ({ rule with comment := stripQuotes (nextValue rest) }, nextTaken rest)
  else .ok (rule, 0)

/-- `text.find(needle) != npos`. -/
def contains (text : Str) (needle : String) : Bool := (findStr needle.toList text).isSome

/-- The chain of a rule that names none in a `chain`, `hook` or `type`: the
first of these words that the line contains. -/
def guessChain (clean : Str) : Direction :=
  if contains clean "input" then .input
  else if contains clean "output" then .output
  else if contains clean "forward" then .forward
  else .unknown

/-- The end of `parse_nftables_rule`. -/
def checkNftablesRule (clean : Str) (rule : FirewallRule) : Result FirewallRule :=
  let rule := if rule.chain = .unknown then { rule with chain := guessChain clean } else rule
  if rule.action = .unknown then failure "nftables rule missing action" else .ok rule

def parseNftablesRule (line : Str) (lineNumber : Nat := 0) : Result FirewallRule :=
  let clean := trim (removeComment line)
  if clean.isEmpty then failure "empty nftables rule"
  else
    let rule : FirewallRule := { raw := clean, line := lineNumber, dialect := .nftables }
    (scanTokens nftablesToken rule 0 (splitWs clean)).bind (checkNftablesRule clean)

/-! ## Parsed rules -/

def validateFirewallRule (rule : FirewallRule) : List Str :=
  (if rule.chain = .unknown then ["rule has unknown chain".toList] else []) ++
  (if rule.action = .unknown then ["rule has unknown action".toList] else []) ++
  (if rule.protocol = .any ∧ (!rule.sourcePorts.any || !rule.destinationPorts.any) then
    ["port constraint has no explicit protocol".toList]
  else []) ++
  (if (rule.chain = .input ∨ rule.chain = .forward) ∧ rule.interfaceOut ≠ [] ∧
    rule.interfaceIn = [] then
    ["input-facing chain sets only output interface".toList]
  else []) ++
  (if rule.chain = .output ∧ rule.interfaceIn ≠ [] ∧ rule.interfaceOut = [] then
    ["output chain sets only input interface".toList]
  else [])

/-- A part of the normal form that is left out when its value is empty. -/
def namedPart (name : String) (value : Str) : Str :=
  if value.isEmpty then [] else name.toList ++ value

def normalizeFirewallRule (r : FirewallRule) : Str :=
  dialectName r.dialect ++ [' '] ++ directionName r.chain ++ [' '] ++
    protocolName r.protocol ++ [' '] ++
    r.source.toString ++ [' '] ++ r.sourcePorts.toString ++ " -> ".toList ++
    r.destination.toString ++ [' '] ++ r.destinationPorts.toString ++ [' '] ++
      actionName r.action ++
    namedPart " iif=" r.interfaceIn ++ namedPart " oif=" r.interfaceOut ++
      namedPart " state=" r.state

/-- `firewall_rule_matches_tuple`. -/
def firewallRuleMatchesTuple (r : FirewallRule) (src dst : IPv4Address) (sport dport : Nat)
    (protocol : RuleProtocol) (chain : Direction) : Bool :=
  if r.chain ≠ .unknown ∧ chain ≠ .unknown ∧ r.chain ≠ chain then false
  else if r.protocol ≠ .any ∧ protocol ≠ .any ∧ r.protocol ≠ protocol then false
  else r.source.hits src && r.destination.hits dst && r.sourcePorts.hits sport &&
    r.destinationPorts.hits dport

end PacketGuard.Policy
