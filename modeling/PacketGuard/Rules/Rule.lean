import PacketGuard.Packet.Types
import PacketGuard.Rules.Expr

/-! Signature rules: the line parser, the normal form and the matcher of
`rules/rules.cpp`. -/
namespace PacketGuard.Rules
open PacketGuard.Core PacketGuard.Packet

inductive RuleAction
  | alert
  | pass
  | drop
  | reject
  | log
  | unknown
  deriving DecidableEq, Repr

inductive RuleProtocol
  | tcp
  | udp
  | icmp
  | ip
  | dns
  | http
  | any
  | unknown
  deriving DecidableEq, Repr

structure RuleOption where
  key : Str
  value : Str
  deriving DecidableEq, Repr

structure SignatureRule where
  action : RuleAction := .unknown
  protocol : RuleProtocol := .unknown
  source : AddressExpr := {}
  sourcePorts : PortExpr := {}
  direction : Str := "->".toList
  destination : AddressExpr := {}
  destinationPorts : PortExpr := {}
  options : List RuleOption := []
  msg : Str := []
  content : Str := []
  sid : Nat := 0
  rev : Nat := 0
  classtype : Str := []
  raw : Str := []
  line : Nat := 0
  deriving DecidableEq, Repr

/-! ## Names -/

def actionName : RuleAction → Str
  | .alert => "alert".toList
  | .pass => "pass".toList
  | .drop => "drop".toList
  | .reject => "reject".toList
  | .log => "log".toList
  | .unknown => "unknown".toList

def protocolName : RuleProtocol → Str
  | .tcp => "tcp".toList
  | .udp => "udp".toList
  | .icmp => "icmp".toList
  | .ip => "ip".toList
  | .dns => "dns".toList
  | .http => "http".toList
  | .any => "any".toList
  | .unknown => "unknown".toList

def parseAction (token : Str) : Option RuleAction :=
  let v := toLower token
  if v = "alert".toList then some .alert
  else if v = "pass".toList then some .pass
  else if v = "drop".toList then some .drop
  else if v = "reject".toList then some .reject
  else if v = "log".toList then some .log
  else none

def parseProtocol (token : Str) : Option RuleProtocol :=
  let v := toLower token
  if v = "tcp".toList then some .tcp
  else if v = "udp".toList then some .udp
  else if v = "icmp".toList then some .icmp
  else if v = "ip".toList then some .ip
  else if v = "dns".toList then some .dns
  else if v = "http".toList then some .http
  else if v = "any".toList then some .any
  else none

/-! ## Options -/

/-- `if (!trim(cur).empty()) out.push_back(trim(cur))`. -/
def trimmedPart (cur : Str) : List Str := if (trim cur).isEmpty then [] else [trim cur]

/-- The loop of `split_option_body`. -/
def splitOptionBodyFrom (cur : Str) (inQuote escaped : Bool) : Str → List Str
  | [] => trimmedPart cur
  | c :: rest =>
    if escaped then splitOptionBodyFrom (cur ++ [c]) inQuote false rest
    else if c = '\\' then splitOptionBodyFrom (cur ++ [c]) inQuote true rest
    else if c = '"' then splitOptionBodyFrom (cur ++ [c]) (!inQuote) false rest
    else if c = ';' ∧ inQuote = false then
      trimmedPart cur ++ splitOptionBodyFrom [] inQuote false rest
    else splitOptionBodyFrom (cur ++ [c]) inQuote false rest

def splitOptionBody (body : Str) : List Str := splitOptionBodyFrom [] false false body

/-- One turn of the loop of `parse_options`. -/
def parseOption (part : Str) : RuleOption :=
  match find ':' part with
  | none => ⟨toLower (trim part), "true".toList⟩
  | some colon =>
    ⟨toLower (trim (part.take colon)), stripQuotes (trim (substr (colon + 1) part))⟩

/-- `parse_options`; `reporting` says that there is a diagnostics object, without
which options without key are kept. -/
def parseOptions (body : Str) (reporting : Bool) (line : Nat) : List RuleOption × Diagnostics :=
  let options := (splitOptionBody body).map parseOption
  if reporting then
    (options.filter fun opt => !opt.key.isEmpty,
      options.flatMap fun opt =>
        if opt.key.isEmpty then
          Diagnostics.warn "rule.option".toList "empty rule option".toList line
        else [])
  else (options, [])

def optionValue (options : List RuleOption) (key : Str) : Option Str :=
  (options.find? fun opt => opt.key == key).map RuleOption.value

def parseU32Option (value : Str) : Option Nat :=
  if !isDecimal value then none else boundedDecimal 64 0xffffffff 0 value

/-! ## Lines -/

/-- The value of an optional, or a failure. -/
def required {α : Type} (msg : String) : Option α → Result α
  | none => failure msg
  | some x => .ok x

def parseDirection (token : Str) : Result Str :=
  if token ≠ "->".toList ∧ token ≠ "<>".toList then failure "unsupported rule direction"
  else .ok token

/-- The options of a rule, with the fields that are read from them. -/
def withOptions (rule : SignatureRule) (options : List RuleOption) : SignatureRule :=
  { rule with
    options := options
    msg := (optionValue options "msg".toList).getD rule.msg
    content := (optionValue options "content".toList).getD rule.content
    sid := ((optionValue options "sid".toList).bind parseU32Option).getD rule.sid
    rev := ((optionValue options "rev".toList).bind parseU32Option).getD rule.rev
    classtype := (optionValue options "classtype".toList).getD rule.classtype }

/-- The seven fields in front of the option block. -/
def readHeader (raw : Str) (line : Nat) (tokens : List Str) : Result SignatureRule :=
  match tokens with
  | [action, protocol, source, sourcePorts, direction, destination, destinationPorts] => do
    let action ← required "unknown rule action" (parseAction action)
    let protocol ← required "unknown rule protocol" (parseProtocol protocol)
    let source ← parseAddressExpr source
    let sourcePorts ← parsePortExpr sourcePorts
    let direction ← parseDirection direction
    let destination ← parseAddressExpr destination
    let destinationPorts ← parsePortExpr destinationPorts
    return { action, protocol, source, sourcePorts, direction, destination, destinationPorts, raw,
             line }
  | _ => failure "rule header must have seven fields"

def parseRuleLine (line : Str) (lineNumber : Nat := 0) : Result SignatureRule :=
  let clean := trim (removeComment line)
  if clean.isEmpty then failure "empty rule line"
  else
    match find '(' clean, rfind ')' clean with
    | some opened, some closed =>
      if closed < opened then failure "rule missing option block"
      else
        let header := collapseSpaces (clean.take opened)
        let body := (substr (opened + 1) clean).take (closed - opened - 1)
        match readHeader clean lineNumber (splitWs header) with
        | .error e => .error e
        | .ok rule => .ok (withOptions rule (parseOptions body true lineNumber).1)
    | _, _ => failure "rule missing option block"

/-! ## The normal form -/

/-- `std::stable_sort` by key. -/
def sortOptions (options : List RuleOption) : List RuleOption :=
  options.insertionSort fun a b => a.key ≤ b.key

/-- An option without the `; ` behind it. -/
def optionPart (opt : RuleOption) : Str :=
  opt.key ++ if opt.value ≠ "true".toList then ":\"".toList ++ (opt.value ++ ['"']) else []

def optionText (opt : RuleOption) : Str := optionPart opt ++ "; ".toList

def normalizeRule (rule : SignatureRule) : Str :=
  actionName rule.action ++ [' '] ++ protocolName rule.protocol ++ [' '] ++
    rule.source.toString ++ [' '] ++ rule.sourcePorts.toString ++ [' '] ++
      rule.direction ++ [' '] ++
    rule.destination.toString ++ [' '] ++ rule.destinationPorts.toString ++ " (".toList ++
    (sortOptions rule.options).flatMap optionText ++ [')']

/-! ## Matching -/

def protoMatches (rule : RuleProtocol) (md : PacketMetadata) : Bool :=
  if rule = .any then true
  else
    match md.ipv4 with
    | none => false
    | some ip =>
      match rule with
      | .ip => true
      | .tcp => md.tcp.isSome
      | .udp => md.udp.isSome
      | .icmp => ip.protocol == 1
      | .dns => md.dns.isSome
      | .http =>
        md.tcp.any fun tcp =>
          tcp.destinationPort == 80 || tcp.destinationPort == 443 || tcp.sourcePort == 80 ||
            tcp.sourcePort == 443
      | .any | .unknown => false

/-- The source and destination ports of a packet, 0 when it has none. -/
def packetPorts (md : PacketMetadata) : Nat × Nat :=
  match md.tcp, md.udp with
  | some tcp, _ => (tcp.sourcePort, tcp.destinationPort)
  | none, some udp => (udp.sourcePort, udp.destinationPort)
  | none, none => (0, 0)

/-- `to_lower(text).find(needle) != npos`. -/
def holdsText (needle text : Str) : Bool := (findStr needle (toLower text)).isSome

def ruleMatchesPacket (rule : SignatureRule) (md : PacketMetadata) : Bool :=
  if !protoMatches rule.protocol md then false
  else
    match md.ipv4 with
    | none => false
    | some ip =>
      let both := rule.direction == "<>".toList
      let forwardAddr := rule.source.hits ip.source && rule.destination.hits ip.destination
      let reverseAddr := both && rule.source.hits ip.destination && rule.destination.hits ip.source
      let (sp, dp) := packetPorts md
      let forwardPorts := rule.sourcePorts.hits sp && rule.destinationPorts.hits dp
      let reversePorts := both && rule.sourcePorts.hits dp && rule.destinationPorts.hits sp
      if !((forwardAddr && forwardPorts) || (reverseAddr && reversePorts)) then false
      else if !rule.content.isEmpty then
        let needle := toLower rule.content
        md.domainNames.any (holdsText needle) ||
          md.dns.any fun dns => dns.answers.any fun r => holdsText needle r.dataText
      else true

end PacketGuard.Rules
