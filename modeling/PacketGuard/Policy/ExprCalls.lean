import PacketGuard.Policy.Duplicates
import PacketGuard.Rules.Checked

/-! # The tokens that lines hand to the expression parsers

The three line parsers hand some of their tokens to `parse_address_expr` and
`parse_port_expr`, in order, up to the first failure.  No token holds white
space, so the only one that makes the expression parsers read an empty string is
a `!` that stands alone.
-/
namespace PacketGuard.Policy
open PacketGuard.Core PacketGuard.Lib
open PacketGuard.Rules
  (parsePortExpr parseAddressExpr parseProtocol parseAction parsePortExprChecked
  parseAddressExprChecked LoneBang loneBang_iff exprChecked_loneBang parsePortExprChecked_eq
  parseAddressExprChecked_eq readHeader parseRuleLine)

/-- A call of an expression parser. -/
inductive ExprCall
  | ports (token : Str)
  | address (token : Str)
  deriving DecidableEq

namespace ExprCall

def token : ExprCall → Str
  | .ports token => token
  | .address token => token

/-- No operation of the call goes wrong. -/
def Safe : ExprCall → Prop
  | .ports token => parsePortExprChecked token = .ok (parsePortExpr token)
  | .address token => parseAddressExprChecked token = .ok (parseAddressExpr token)

/-- The token is no expression. -/
def fails : ExprCall → Bool
  | .ports token => (parsePortExpr token).toOption.isNone
  | .address token => (parseAddressExpr token).toOption.isNone

theorem safe_iff (call : ExprCall) : call.Safe ↔ ¬ LoneBang call.token := by
  constructor
  · intro hsafe hbang
    obtain ⟨hports, haddress⟩ := exprChecked_loneBang hbang
    cases call with
    | ports token => cases hports.symm.trans hsafe
    | address token => cases haddress.symm.trans hsafe
  · intro hbang
    have hrest := loneBang_iff.mp hbang
    cases call with
    | ports token => exact parsePortExprChecked_eq hrest
    | address token => exact parseAddressExprChecked_eq hrest

end ExprCall

/-! ## The calls of a line -/

/-- The calls one after the other, up to the first that fails. -/
def callsUpToFailure : List ExprCall → List ExprCall
  | [] => []
  | call :: calls => call :: if call.fails then [] else callsUpToFailure calls

theorem mem_of_mem_callsUpToFailure {calls : List ExprCall} {call : ExprCall}
    (hcall : call ∈ callsUpToFailure calls) : call ∈ calls := by
  induction calls with
  | nil => exact hcall
  | cons first calls ih =>
    rw [callsUpToFailure, List.mem_cons] at hcall
    rcases hcall with rfl | hcall
    · exact List.mem_cons_self
    · split at hcall
      · cases hcall
      · exact List.mem_cons_of_mem _ (ih hcall)

/-- The calls for the header of a rule: the direction is checked behind the first two. -/
def headerCalls : List Str → List ExprCall
  | [action, protocol, source, sourcePorts, direction, destination, destinationPorts] =>
    if (parseAction action).isNone ∨ (parseProtocol protocol).isNone then []
    else if direction = "->".toList ∨ direction = "<>".toList then
      callsUpToFailure [.address source, .ports sourcePorts, .address destination,
        .ports destinationPorts]
    else callsUpToFailure [.address source, .ports sourcePorts]
  | _ => []

theorem mem_headerCalls
    {action protocol source sourcePorts direction destination destinationPorts : Str}
    {call : ExprCall}
    (h : call ∈ headerCalls
      [action, protocol, source, sourcePorts, direction, destination, destinationPorts]) :
    call = .address source ∨ call = .ports sourcePorts ∨ call = .address destination ∨
      call = .ports destinationPorts := by
  unfold headerCalls at h
  simp only at h
  split at h
  · cases h
  split at h
  · have hmem := mem_of_mem_callsUpToFailure h
    simpa using hmem
  · have hmem := mem_of_mem_callsUpToFailure h
    rw [List.mem_cons, List.mem_singleton] at hmem
    exact hmem.imp_right .inl

/-- The calls of `parse_rule_line`. -/
def ruleLineCalls (line : Str) : List ExprCall :=
  let clean := trim (removeComment line)
  if clean.isEmpty then []
  else
    match find '(' clean, rfind ')' clean with
    | some opened, some closed =>
      if closed < opened then [] else headerCalls (splitWs (collapseSpaces (clean.take opened)))
    | _, _ => []

/-- The call of one turn of the loop of `parse_iptables_rule`. -/
def iptablesTokenCalls (tok : Str) (rest : List Str) : List ExprCall :=
  if isOneOf tok ["-s", "--source", "-d", "--destination"] then [.address (nextValue rest)]
  else if isOneOf tok ["--sport", "--source-port", "--sports", "--dport", "--destination-port",
    "--dports"]
    then [.ports (nextValue rest)]
  else []

/-- The call of one turn of the loop of `parse_nftables_rule`. -/
def nftablesTokenCalls (token : Str) (rest : List Str) : List ExprCall :=
  let tok := toLower token
  let field := toLower (rest.getD 0 [])
  let second := rest.getD 1 []
  if rest.length < 2 then []
  else if isOneOf tok ["ip"] ∧ isOneOf field ["saddr", "daddr"] then [.address second]
  else if isOneOf tok ["tcp", "udp"] ∧ isOneOf field ["sport", "dport"] then [.ports second]
  else []

/-- The calls of `parse_iptables_rule`. -/
def iptablesLineCalls (line : Str) (n : Nat) : List ExprCall :=
  scanCalls iptablesToken iptablesTokenCalls (iptablesStart line n) 0
    (splitWs (trim (removeComment line)))

/-- The calls of `parse_nftables_rule`. -/
def nftablesLineCalls (line : Str) (n : Nat) : List ExprCall :=
  scanCalls nftablesToken nftablesTokenCalls (nftablesStart line n) 0
    (splitWs (trim (removeComment line)))

/-! ## Tokens without white space -/

theorem noSpace_headerCalls {tokens : List Str} (h : ∀ t ∈ tokens, NoSpace t) :
    ∀ call ∈ headerCalls tokens, NoSpace call.token := by
  intro call hcall
  unfold headerCalls at hcall
  split at hcall
  · simp only [List.forall_mem_cons] at h
    obtain ⟨_, _, hsource, hsports, _, hdestination, hdports, -⟩ := h
    rcases mem_headerCalls hcall with rfl | rfl | rfl | rfl
    · exact hsource
    · exact hsports
    · exact hdestination
    · exact hdports
  · cases hcall

theorem noSpace_ruleLineCalls (line : Str) : ∀ call ∈ ruleLineCalls line, NoSpace call.token := by
  unfold ruleLineCalls
  simp only
  split
  · exact fun call hcall => absurd hcall List.not_mem_nil
  split
  · split
    · exact fun call hcall => absurd hcall List.not_mem_nil
    · exact noSpace_headerCalls fun t ht => noSpace_of_mem_splitWs ht
  · exact fun call hcall => absurd hcall List.not_mem_nil

theorem noSpace_iptablesLineCalls (line : Str) (n : Nat) :
    ∀ call ∈ iptablesLineCalls line n, NoSpace call.token := by
  refine forall_mem_scanCalls (fun tok rest htokens call hcall => ?_) _ 0 fun _ =>
    noSpace_of_mem_splitWs
  have hvalue := noSpace_nextValue (List.forall_mem_cons.mp htokens).2
  unfold iptablesTokenCalls at hcall
  split at hcall
  · cases List.mem_singleton.mp hcall
    exact hvalue
  split at hcall
  · cases List.mem_singleton.mp hcall
    exact hvalue
  · cases hcall

theorem noSpace_nftablesLineCalls (line : Str) (n : Nat) :
    ∀ call ∈ nftablesLineCalls line n, NoSpace call.token := by
  refine forall_mem_scanCalls (fun tok rest htokens call hcall => ?_) _ 0 fun _ =>
    noSpace_of_mem_splitWs
  have hsecond := noSpace_getD (List.forall_mem_cons.mp htokens).2 1
  unfold nftablesTokenCalls at hcall
  simp only at hcall
  split at hcall
  · cases hcall
  split at hcall
  · cases List.mem_singleton.mp hcall
    exact hsecond
  split at hcall
  · cases List.mem_singleton.mp hcall
    exact hsecond
  · cases hcall

/-! ## A call that fails -/

theorem ExprCall.ports_fails {token : Str} (h : (ExprCall.ports token).fails = true) :
    (parsePortExpr token).toOption = none := Option.isNone_iff_eq_none.mp h

theorem ExprCall.address_fails {token : Str} (h : (ExprCall.address token).fails = true) :
    (parseAddressExpr token).toOption = none := Option.isNone_iff_eq_none.mp h

theorem isOneOf_nil (tok : Str) : isOneOf tok [] = true ↔ False := by simp [isOneOf]

theorem isOneOf_cons (tok : Str) (name : String) (names : List String) :
    isOneOf tok (name :: names) = true ↔ name.toList = tok ∨ isOneOf tok names = true := by
  simp [isOneOf]

theorem toOption_bind {α β : Type} (r : Result α) (f : α → Result β) :
    (r >>= f).toOption = r.toOption.bind fun value => (f value).toOption := by
  cases r <;> rfl

theorem toOption_map_of_none {α β : Type} {r : Result α} (h : r.toOption = none) (f : α → β) :
    (r.map f).toOption = none := by
  cases r with
  | error e => rfl
  | ok value => cases h

theorem iptablesToken_of_fails (rule : FirewallRule) (tok : Str) (rest : List Str) :
    ∀ call ∈ iptablesTokenCalls tok rest, call.fails = true →
      (iptablesToken rule tok rest).toOption = none := by
  intro call hcall hfails
  unfold iptablesTokenCalls at hcall
  split at hcall
  · rename_i htok
    cases List.mem_singleton.mp hcall
    have hvalue := ExprCall.address_fails hfails
    simp only [isOneOf_cons, isOneOf_nil, or_false] at htok
    rcases htok with rfl | rfl | rfl | rfl <;> exact toOption_map_of_none hvalue _
  split at hcall
  · rename_i htok
    cases List.mem_singleton.mp hcall
    have hvalue := ExprCall.ports_fails hfails
    simp only [isOneOf_cons, isOneOf_nil, or_false] at htok
    rcases htok with rfl | rfl | rfl | rfl | rfl | rfl <;> exact toOption_map_of_none hvalue _
  · cases hcall

theorem nftablesToken_of_fails (rule : FirewallRule) (token : Str) (rest : List Str) :
    ∀ call ∈ nftablesTokenCalls token rest, call.fails = true →
      (nftablesToken rule token rest).toOption = none := by
  intro call hcall hfails
  unfold nftablesTokenCalls at hcall
  unfold nftablesToken
  simp only at hcall ⊢
  generalize toLower token = tok at hcall ⊢
  generalize toLower (rest.getD 0 []) = field at hcall ⊢
  split at hcall
  · cases hcall
  rename_i hlength
  have htwo : 2 ≤ rest.length := Nat.le_of_not_lt hlength
  -- neither `ip` nor `tcp` and `udp` are words of an earlier branch
  have hother : ∀ {names : List String} {n : Nat} {tok : Str}, isOneOf tok names = false →
      ¬ (isOneOf tok names = true ∧ n ≤ rest.length) := by
    intro names n tok hnames hboth
    rw [hnames] at hboth
    cases hboth.1
  split at hcall
  · rename_i htok
    cases List.mem_singleton.mp hcall
    have hvalue := ExprCall.address_fails hfails
    simp only [isOneOf_cons, isOneOf_nil, or_false] at htok
    obtain ⟨rfl, hfield⟩ := htok
    rw [if_neg (hother rfl), if_neg (hother rfl), if_pos ⟨rfl, htwo⟩]
    rcases hfield with rfl | rfl <;> exact toOption_map_of_none hvalue _
  split at hcall
  · rename_i htok
    cases List.mem_singleton.mp hcall
    have hvalue := ExprCall.ports_fails hfails
    simp only [isOneOf_cons, isOneOf_nil, or_false] at htok
    obtain ⟨htok, hfield⟩ := htok
    have hbefore : isOneOf tok ["chain"] = false ∧ isOneOf tok ["hook", "type"] = false ∧
        isOneOf tok ["ip"] = false ∧ isOneOf tok ["tcp", "udp"] = true := by
      rcases htok with rfl | rfl <;> decide
    rw [if_neg (hother hbefore.1), if_neg (hother hbefore.2.1), if_neg (hother hbefore.2.2.1),
      if_pos ⟨hbefore.2.2.2, htwo⟩]
    rcases hfield with rfl | rfl <;> exact toOption_map_of_none hvalue _
  · cases hcall

theorem readHeader_of_fails (raw : Str) (n : Nat) (tokens : List Str) :
    ∀ call ∈ headerCalls tokens, call.fails = true → (readHeader raw n tokens).toOption = none := by
  intro call hcall hfails
  unfold headerCalls at hcall
  split at hcall
  · have hcall := mem_headerCalls hcall
    unfold readHeader
    simp only [toOption_bind]
    rcases hcall with rfl | rfl | rfl | rfl
    · simp [ExprCall.address_fails hfails]
    · simp [ExprCall.ports_fails hfails]
    · simp [ExprCall.address_fails hfails]
    · simp [ExprCall.ports_fails hfails]
  · cases hcall

theorem parseRuleLine_of_fails (line : Str) (n : Nat) :
    ∀ call ∈ ruleLineCalls line, call.fails = true → (parseRuleLine line n).toOption = none := by
  intro call hcall hfails
  unfold ruleLineCalls at hcall
  unfold parseRuleLine
  generalize trim (removeComment line) = clean at hcall ⊢
  change _ ∈ if clean.isEmpty = true then [] else _ at hcall
  show Except.toOption (if clean.isEmpty = true then _ else _) = none
  by_cases hempty : clean.isEmpty = true
  · rw [if_pos hempty] at hcall
    cases hcall
  rw [if_neg hempty] at hcall ⊢
  cases hopened : find '(' clean with
  | none =>
    rw [hopened] at hcall
    cases hcall
  | some opened =>
    cases hclosed : rfind ')' clean with
    | none =>
      rw [hopened, hclosed] at hcall
      cases hcall
    | some closed =>
      rw [hopened, hclosed] at hcall
      change call ∈ if closed < opened then [] else _ at hcall
      show Except.toOption (if closed < opened then _ else _) = none
      by_cases hblock : closed < opened
      · rw [if_pos hblock] at hcall
        cases hcall
      rw [if_neg hblock] at hcall ⊢
      have hheader := readHeader_of_fails clean n _ call hcall hfails
      cases hread : readHeader clean n (splitWs (collapseSpaces (clean.take opened))) with
      | error e =>
        simp only [hread]
        rfl
      | ok rule =>
        rw [hread] at hheader
        cases hheader

theorem parseIptablesRule_of_fails (line : Str) (n : Nat) :
    ∀ call ∈ iptablesLineCalls line n, call.fails = true →
      (parseIptablesRule line n).toOption = none := by
  intro call hcall hfails
  have hscan := scanTokens_toOption_of_call iptablesToken_of_fails hcall hfails
  unfold parseIptablesRule
  simp only
  split
  · rfl
  · rw [iptablesStart] at hscan
    refine (toOption_bind _ _).trans ?_
    rw [hscan]
    rfl

theorem parseNftablesRule_of_fails (line : Str) (n : Nat) :
    ∀ call ∈ nftablesLineCalls line n, call.fails = true →
      (parseNftablesRule line n).toOption = none := by
  intro call hcall hfails
  have hscan := scanTokens_toOption_of_call nftablesToken_of_fails hcall hfails
  unfold parseNftablesRule
  simp only
  split
  · rfl
  · rw [nftablesStart] at hscan
    refine (toOption_bind _ _).trans ?_
    rw [hscan]
    rfl

/-! ## Safety -/

/-- A line parser with these calls reads no empty string, and it fails when one of them does. -/
def SafeLine {α : Type} (calls : List ExprCall) (result : Result α) : Prop :=
  ∀ call ∈ calls, call.Safe ∧ (call.fails = true → result.toOption = none)

/-- A line is safe when it hands no `!` that stands alone to the expression parsers. -/
theorem safeLine_iff {α : Type} {calls : List ExprCall} {result : Result α}
    (hspace : ∀ call ∈ calls, NoSpace call.token)
    (hfails : ∀ call ∈ calls, call.fails = true → result.toOption = none) :
    SafeLine calls result ↔ ∀ call ∈ calls, call.token ≠ ['!'] := by
  have hcall : ∀ call ∈ calls, (call.Safe ↔ call.token ≠ ['!']) := by
    intro call hcall
    rw [call.safe_iff, LoneBang, trim_eq_self (hspace call hcall).trimmed]
  constructor
  · intro hsafe call hmem
    exact (hcall call hmem).mp (hsafe call hmem).1
  · intro hbang call hmem
    exact ⟨(hcall call hmem).mpr (hbang call hmem), hfails call hmem⟩

/-- **Expression parsing reads no empty string exactly when** its token is no lone
`!`, and for a line exactly when none of the tokens that the line hands to it is
one. -/
theorem exprCalls_safe_iff (token line : Str) (n : Nat) :
    (((ExprCall.ports token).Safe ↔ ¬ LoneBang token) ∧
        ((ExprCall.address token).Safe ↔ ¬ LoneBang token)) ∧
      (SafeLine (ruleLineCalls line) (parseRuleLine line n) ↔
        ∀ call ∈ ruleLineCalls line, call.token ≠ ['!']) ∧
      (SafeLine (iptablesLineCalls line n) (parseIptablesRule line n) ↔
        ∀ call ∈ iptablesLineCalls line n, call.token ≠ ['!']) ∧
      (SafeLine (nftablesLineCalls line n) (parseNftablesRule line n) ↔
        ∀ call ∈ nftablesLineCalls line n, call.token ≠ ['!']) :=
  ⟨⟨(ExprCall.ports token).safe_iff, (ExprCall.address token).safe_iff⟩,
    safeLine_iff (noSpace_ruleLineCalls line) (parseRuleLine_of_fails line n),
    safeLine_iff (noSpace_iptablesLineCalls line n) (parseIptablesRule_of_fails line n),
    safeLine_iff (noSpace_nftablesLineCalls line n) (parseNftablesRule_of_fails line n)⟩

/-- The iptables line `-A INPUT -s ! 10.0.0.1 -j DROP`, the nftables line `ip saddr
! drop`, the rule line `alert tcp ! any -> any any (sid:1;)`. -/
theorem loneBang_not_safe :
    ¬ ((∀ token, (ExprCall.ports token).Safe) ∨ (∀ token, (ExprCall.address token).Safe) ∨
      (∀ line n, SafeLine (iptablesLineCalls line n) (parseIptablesRule line n)) ∨
      (∀ line n, SafeLine (nftablesLineCalls line n) (parseNftablesRule line n)) ∨
      ∀ line n, SafeLine (ruleLineCalls line) (parseRuleLine line n)) := by
  have haddress : ¬ (ExprCall.address ['!']).Safe := nofun
  rintro (h | h | h | h | h)
  · cases h ['!']
  · exact haddress (h ['!'])
  · exact haddress (h "-A INPUT -s ! 10.0.0.1 -j DROP".toList 0 _ (by decide)).1
  · exact haddress (h "ip saddr ! drop".toList 0 _ (by decide)).1
  · exact haddress (h "alert tcp ! any -> any any (sid:1;)".toList 0 _ (by decide)).1

end PacketGuard.Policy
