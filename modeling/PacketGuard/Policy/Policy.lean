import PacketGuard.Lib.Machine
import PacketGuard.Lib.Multimap
import PacketGuard.Policy.Firewall
import PacketGuard.Policy.Settings

/-! Policy files: `parse_policy_text` and the reviews of the parsed rules
(`policy/policy.cpp`). -/
namespace PacketGuard.Policy
open PacketGuard.Core PacketGuard.Lib

structure PolicyFile where
  dominantDialect : FirewallDialect := .unknown
  firewallRules : List FirewallRule := []
  settings : List PolicyKV := []
  diagnostics : Diagnostics := []

/-! ## Reviews -/

def duplicateRules (file : PolicyFile) : List Str :=
  let seen : Multimap Str Nat :=
    fileAll (file.firewallRules.map fun r => (normalizeFirewallRule r, r.line))
  seen.toList.flatMap fun kv =>
    if 1 < kv.2.length then ["duplicate firewall rule at line ".toList ++
      natToString (kv.2.headD 0)] else []

def sameScope (a b : FirewallRule) : Bool :=
  a.chain = b.chain && a.protocol = b.protocol && a.source.toString == b.source.toString &&
    a.destination.toString == b.destination.toString &&
    a.sourcePorts.toString == b.sourcePorts.toString &&
    a.destinationPorts.toString == b.destinationPorts.toString

/-- The action decides about the packet. -/
def FirewallAction.decides (action : FirewallAction) : Bool :=
  action = .accept || action = .drop || action = .reject

def shadowText (earlier later : FirewallRule) : Str :=
  "line ".toList ++ natToString later.line ++ " is shadowed by line ".toList ++
    natToString earlier.line

/-- The two loops of `shadowed_rules`. -/
def shadowedFrom : List FirewallRule → List Str
  | [] => []
  | earlier :: rest =>
    (if earlier.action.decides then
      (rest.filter fun later => sameScope earlier later).map (shadowText earlier)
    else []) ++ shadowedFrom rest

def shadowedRules (file : PolicyFile) : List Str := shadowedFrom file.firewallRules

def FirewallRule.broad (r : FirewallRule) : Bool :=
  r.source.any && r.destination.any && r.sourcePorts.any && r.destinationPorts.any && r.protocol =
    .any

/-- The loop of `ordering_warnings`; `seen` is `broad_drop_seen`. -/
def orderingFrom (seen : Direction → Bool) : List FirewallRule → List Str
  | [] => []
  | r :: rest =>
    (if seen r.chain ∧ r.action = .accept then
      ["allow rule at line ".toList ++ natToString r.line ++
        " appears after a broad deny in the same chain".toList]
    else []) ++
    orderingFrom
      (if r.broad ∧ (r.action = .drop ∨ r.action = .reject) then
        fun chain => if chain = r.chain then true else seen chain
      else seen) rest

def orderingWarnings (file : PolicyFile) : List Str :=
  orderingFrom (fun _ => false) file.firewallRules

/-! ## The lines of a policy -/

/-- The test for a line in the iptables dialect. -/
def iptablesLine (clean : Str) : Bool :=
  startsWith clean "iptables".toList || contains clean " -A " || startsWith clean "-A ".toList ||
    startsWith clean "-I ".toList

/-- The test for a line in the nftables dialect, made when the line is not iptables. -/
def nftablesLine (clean : Str) : Bool :=
  contains clean " nft " || startsWith clean "add rule".toList || contains clean " ip saddr " ||
    contains clean " tcp dport " || contains clean " udp dport "

/-- The value of `parsed` after the dispatch. -/
def parsePolicyLine (clean : Str) (n : Nat) : Result FirewallRule :=
  if iptablesLine clean then parseIptablesRule clean n
  else if nftablesLine clean then parseNftablesRule clean n
  else failure "unparsed"

/-- The rule a line contributes. -/
def lineRules (n : Nat) (clean : Str) : List FirewallRule :=
  match parsePolicyLine clean n with
  | .ok rule => [rule]
  | .error _ => []

/-- The diagnostics a line contributes. -/
def lineDiagnostics (n : Nat) (clean : Str) : Diagnostics :=
  match parsePolicyLine clean n with
  | .ok rule => (validateFirewallRule
    rule).flatMap fun w => Diagnostics.warn "policy.validate".toList w n
  | .error status =>
    if status.message ≠ "unparsed".toList then Diagnostics.warn "policy.rule".toList
      status.message n
    else []

/-- The variables of the loop over the lines; `n` counts the lines read. -/
structure PolicyScan where
  n : Nat := 0
  ipt : Nat := 0
  nft : Nat := 0
  firewallRules : List FirewallRule := []
  diagnostics : Diagnostics := []

/-- One turn of the loop of `parse_policy_text`. -/
def PolicyScan.step (s : PolicyScan) (line : Str) : PolicyScan :=
  let n := s.n + 1
  let clean := trim (removeComment line)
  if clean.isEmpty then { s with n }
  else
    { n
      ipt := s.ipt + if iptablesLine clean then 1 else 0
      nft := s.nft + if !iptablesLine clean && nftablesLine clean then 1 else 0
      firewallRules := s.firewallRules ++ lineRules n clean
      diagnostics := s.diagnostics ++ lineDiagnostics n clean }

/-- The loop as a machine that reads lines. -/
def policyMachine : Machine PolicyScan Str where
  init := {}
  step := PolicyScan.step

/-! ## Texts -/

/-- The settings of a text without firewall rules. -/
def parseSettings (text : Str) : List PolicyKV × Diagnostics :=
  if '=' ∈ text ∧ '[' ∈ text then parseIniPolicy text
  else if ',' ∈ text ∧ '\n' ∈ text then parseCsvPolicy text
  else if '{' ∈ text ∨ '"' ∈ text then parseJsonLikePolicy text
  else ([], [])

/-- The file after the lines and the settings, before the reviews. -/
def scannedFile (text : Str) : PolicyFile :=
  let scan := policyMachine.run (getlines '\n' text)
  if scan.firewallRules.isEmpty then
    let (settings, diagnostics) := parseSettings text
    { dominantDialect := if settings.isEmpty then .unknown else .genericPolicy
      settings
      diagnostics := scan.diagnostics ++ diagnostics }
  else
    { dominantDialect := if scan.nft ≤ scan.ipt then .iptables else .nftables
      firewallRules := scan.firewallRules
      diagnostics := scan.diagnostics }

/-- The diagnostics of a review, which carry no line number. -/
def reviewDiagnostics (code : String) (texts : List Str) : Diagnostics :=
  texts.flatMap fun text => Diagnostics.warn code.toList text

def parsePolicyText (text : Str) : PolicyFile :=
  let file := scannedFile text
  { file with
    diagnostics := file.diagnostics ++ reviewDiagnostics "policy.duplicate" (duplicateRules file) ++
      reviewDiagnostics "policy.shadow" (shadowedRules file) ++
      reviewDiagnostics "policy.order" (orderingWarnings file) }

end PacketGuard.Policy
