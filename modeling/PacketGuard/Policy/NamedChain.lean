import PacketGuard.Policy.ExprCalls

/-! # The chain of an nftables rule

`add rule family table chain ...` names the chain of the rule in its fifth word.
The loop of `parse_nftables_rule` does not read that word: unless a `chain`,
`hook` or `type` stands elsewhere in the line, the chain is the first of
`input`, `output` and `forward` that the text of the line contains, in whatever
word.
-/
namespace PacketGuard.Policy
open PacketGuard.Core PacketGuard.Lib

/-- The words after which the loop looks for a chain. -/
def chainWords : List String := ["chain", "hook", "type"]

/-- The chain that one turn of the loop sets. -/
def namedChain (token : Str) (rest : List Str) : List Direction :=
  if isOneOf (toLower token) chainWords ∧ 1 ≤ rest.length
    then (parseDirection (rest.getD 0 [])).toList
  else []

/-- The chains named behind a `chain`, `hook` or `type` of the line. -/
def namedChains (line : Str) (n : Nat) : List Direction :=
  scanCalls nftablesToken namedChain (nftablesStart line n) 0 (splitWs (trim (removeComment line)))

/-- The search for a chain in the text of the line comes upon this word first. -/
def FoundFirst (clean named : Str) : Prop :=
  named = "input".toList ∨ (named = "output".toList ∧ contains clean "input" = false) ∨
    (named = "forward".toList ∧ contains clean "input" = false ∧ contains clean "output" = false)

/-- The rule of the line goes to the chain `named`. -/
def LandsIn (line : Str) (n : Nat) (named : Str) : Prop :=
  match (namedChains line n).getLast? with
  | some chain => parseDirection named = some chain
  | none => FoundFirst (trim (removeComment line)) named

/-! ## The loop -/

theorem parseDirection_ne_unknown {token : Str} {chain : Direction}
    (h : parseDirection token = some chain) :
    chain ≠ .unknown := by
  rintro rfl
  unfold parseDirection at h
  simp only at h
  split_ifs at h <;> cases h

theorem namedChain_ne_unknown (token : Str) (rest : List Str) :
    ∀ chain ∈ namedChain token rest, chain ≠ .unknown := by
  intro chain hchain
  unfold namedChain at hchain
  split at hchain
  · exact parseDirection_ne_unknown (Option.mem_toList.mp hchain)
  · cases hchain

theorem namedChain_of_plain {token : Str} (h : isOneOf (toLower token) chainWords = false)
    (rest : List Str) :
    namedChain token rest = [] :=
  if_neg fun hboth => Bool.false_ne_true (h.symm.trans hboth.1)

/-- A turn that reads an expression into a field other than the chain. -/
theorem keeps_map {α : Type} (r : Result α) {f : α → FirewallRule × Nat} {chain : Direction}
    (hf : ∀ a, (f a).1.chain = chain) : Outcome (fun r => r.1.chain = chain) (fun _ => True)
    (r.map f) := by
  cases r with
  | error e => trivial
  | ok a => exact hf a

/-- **One turn** sets the chain that it names, and only that. -/
theorem nftablesToken_chain (rule : FirewallRule) (token : Str) (rest : List Str) :
    Outcome (fun r => r.1.chain = ((namedChain token rest).getLast?.map id).getD rule.chain)
      (fun _ => True)
      (nftablesToken rule token rest) := by
  have hnames : ∀ names : List String, (∀ name ∈ names, name ∈ chainWords) →
      isOneOf (toLower token) names = true ∧ 1 ≤ rest.length →
      (parseDirection (rest.getD 0 [])).getD rule.chain =
        ((namedChain token rest).getLast?.map id).getD rule.chain := by
    intro names hsub hhere
    obtain ⟨name, hname, heq⟩ := List.any_eq_true.mp hhere.1
    have hword : isOneOf (toLower token) chainWords = true :=
      List.any_eq_true.mpr ⟨name, hsub name hname, heq⟩
    rw [namedChain, if_pos ⟨hword, hhere.2⟩]
    cases parseDirection (rest.getD 0 []) <;> rfl
  unfold nftablesToken
  refine .ite (hnames ["chain"] (by decide)) fun hchain => ?_
  refine .ite (hnames ["hook", "type"] (by decide)) fun hhook => ?_
  have hnone : namedChain token rest = [] := by
    refine if_neg fun hboth => ?_
    simp only [chainWords, isOneOf_cons, isOneOf_nil, or_false] at hboth hchain hhook
    rcases hboth with ⟨hword | hword, hlength⟩
    · exact hchain ⟨hword, hlength⟩
    · exact hhook ⟨hword, hlength⟩
  rw [hnone]
  refine .ite (fun _ => ?_) fun _ => ?_
  · refine .ite (fun _ => keeps_map _ fun _ => rfl) fun _ => ?_
    exact .ite (fun _ => keeps_map _ fun _ => rfl) fun _ => rfl
  refine .ite (fun _ => ?_) fun _ => ?_
  · refine .ite (fun _ => keeps_map _ fun _ => rfl) fun _ => ?_
    exact .ite (fun _ => keeps_map _ fun _ => rfl) fun _ => rfl
  refine .ite (fun _ => rfl) fun _ => ?_
  refine .ite (fun _ => rfl) fun _ => ?_
  refine .ite (fun _ => rfl) fun _ => ?_
  refine .ite (fun _ => rfl) fun _ => ?_
  exact .ite (fun _ => rfl) fun _ => rfl

/-- The end of `parse_nftables_rule` guesses a chain that is not known, and keeps one that is. -/
theorem chain_of_checkNftablesRule {clean : Str} {s rule : FirewallRule}
    (h : checkNftablesRule clean s = .ok rule) :
    rule.chain = if s.chain = .unknown then guessChain clean else s.chain := by
  unfold checkNftablesRule at h
  by_cases hchain : s.chain = .unknown
  · simp only [if_pos hchain] at h ⊢
    split at h
    · cases h
    · cases h
      rfl
  · simp only [if_neg hchain] at h ⊢
    split at h
    · cases h
    · cases h
      rfl

/-- **The chain of the rule** is the last one the line names, and the guess where it names none. -/
theorem chain_of_parseNftablesRule {line : Str} {n : Nat} {rule : FirewallRule}
    (h : parseNftablesRule line n = .ok rule) :
    rule.chain = (namedChains line n).getLast?.getD (guessChain (trim (removeComment line))) := by
  unfold parseNftablesRule at h
  simp only at h
  split at h
  · cases h
  obtain ⟨s, hscan, hcheck⟩ := bind_eq_ok h
  have hread := @scanTokens_read FirewallRule Str Status nftablesToken Direction
    Direction namedChain
    FirewallRule.chain id (fun rule token rest s' taken hturn =>
      (nftablesToken_chain rule token rest).of_eq_ok hturn)
    _ _ _ _ hscan
  have hchain : s.chain = ((namedChains line n).getLast?.map id).getD .unknown := hread
  have hknown : ∀ chain ∈ namedChains line n, chain ≠ .unknown := fun chain hmem =>
    forall_mem_scanCalls (fun token rest _ => namedChain_ne_unknown token rest) _ 0
      (fun _ _ => trivial) chain hmem
  rw [chain_of_checkNftablesRule hcheck, hchain]
  cases hlast : (namedChains line n).getLast? with
  | none => exact if_pos rfl
  | some chain => exact if_neg (hknown chain (List.mem_of_getLast? hlast))

/-! ## The word of the line -/

/-- The guess is the word `named`, which stands in the line, when the search comes upon it first. -/
theorem guessChain_eq_iff {clean named : Str}
    (hnamed : isOneOf named ["input", "output", "forward"] = true)
    (hmem : named <:+: clean) :
    parseDirection named = some (guessChain clean) ↔ FoundFirst clean named := by
  have hfound : ∀ {word : String}, word.toList = named → contains clean word = true := by
    rintro word rfl
    exact findStr_isSome_iff.mpr hmem
  simp only [isOneOf_cons, isOneOf_nil, or_false] at hnamed
  unfold guessChain FoundFirst
  rcases hnamed with hword | hword | hword
  · rw [if_pos (hfound hword)]
    subst hword
    exact iff_of_true rfl (.inl rfl)
  · rw [if_pos (hfound hword)]
    subst hword
    rw [show parseDirection "output".toList = some .output from rfl]
    cases contains clean "input" <;> simp
  · rw [if_pos (hfound hword)]
    subst hword
    rw [show parseDirection "forward".toList = some .forward from rfl]
    cases contains clean "input" <;> cases contains clean "output" <;> simp

/-- Where no word asks for a chain, the loop sets none. -/
theorem namedChains_of_plain {line : Str} (n : Nat)
    (h : ∀ t ∈ splitWs (trim (removeComment line)), isOneOf (toLower t) chainWords = false) :
    namedChains line n = [] := by
  refine List.eq_nil_iff_forall_not_mem.mpr fun chain hchain => ?_
  have hnone : ∀ token rest, (∀ t ∈ token :: rest, isOneOf (toLower t) chainWords = false) →
      ∀ chain ∈ namedChain token rest, False := by
    intro token rest hplain chain hmem
    rw [namedChain_of_plain (hplain token List.mem_cons_self)] at hmem
    cases hmem
  exact forall_mem_scanCalls hnone _ 0 h chain hchain

/-- **An `add rule` line** has its rule in the chain it names exactly when the last
chain behind a `chain`, `hook` or `type` is that one, and where there is none, when
the search of the text comes upon it first. -/
theorem parseNftablesRule_chain_iff {line : Str} {n : Nat} {family table named : Str}
    {rest : List Str}
    {rule : FirewallRule}
    (htokens : splitWs (trim (removeComment line)) =
      "add".toList :: "rule".toList :: family :: table :: named :: rest)
    (hnamed : isOneOf named ["input", "output", "forward"] = true)
    (h : parseNftablesRule line n = .ok rule) :
    (parseDirection named = some rule.chain ↔ LandsIn line n named) ∧
      ((∀ t ∈ family :: table :: rest, isOneOf (toLower t) chainWords = false) →
        (parseDirection named = some rule.chain ↔
          FoundFirst (trim (removeComment line)) named)) := by
  have hin : named <:+: trim (removeComment line) := infix_of_mem_splitWs (by simp [htokens])
  have hlands : parseDirection named = some rule.chain ↔ LandsIn line n named := by
    rw [chain_of_parseNftablesRule h, LandsIn]
    cases (namedChains line n).getLast? with
    | none => exact guessChain_eq_iff hnamed hin
    | some chain => exact Iff.rfl
  refine ⟨hlands, fun hplain => ?_⟩
  have hnone : namedChains line n = [] := by
    refine namedChains_of_plain n ?_
    have hwords : isOneOf (toLower named) chainWords = false := by
      simp only [isOneOf_cons, isOneOf_nil, or_false] at hnamed
      rcases hnamed with rfl | rfl | rfl <;> rfl
    rw [htokens]
    simp only [List.forall_mem_cons] at hplain ⊢
    exact ⟨rfl, rfl, hplain.1, hplain.2.1, hwords, hplain.2.2⟩
  rw [hlands, LandsIn, hnone]
  exact Iff.rfl

theorem parseNftablesRule_chain_iff_input :
    ∃ rule, parseNftablesRule "add rule inet filter input tcp dport 443 accept".toList
      1 = .ok rule ∧
      parseDirection "input".toList = some rule.chain := by
  have hchain := @parseNftablesRule_chain_iff
    "add rule inet filter input tcp dport 443 accept".toList 1
    "inet".toList "filter".toList "input".toList _ _ rfl rfl rfl
  exact ⟨_, rfl, (hchain.2 (by decide)).mpr (.inl rfl)⟩

/-- The words that the loop reads. -/
def nftablesKeywords : List String :=
  chainWords ++ ["ip", "saddr", "daddr", "tcp", "udp", "sport", "dport", "iif", "iifname", "oif",
    "oifname", "ct",
    "state", "accept", "drop", "reject", "log", "return", "comment"]

/-- A rule for the output chain of a table that is called `input_filter`. -/
theorem not_landsIn_named :
    ¬ ∀ (line : Str) (n : Nat) (family table named : Str) (rest : List Str) (rule : FirewallRule),
      splitWs (trim (removeComment line)) = "add".toList :: "rule".toList :: family :: table ::
        named :: rest →
      (isOneOf (toLower family) nftablesKeywords = false ∨ family = "ip".toList) →
      isOneOf (toLower table) nftablesKeywords = false →
      isOneOf named ["input", "output", "forward"] = true →
      (∀ t ∈ rest, isOneOf (toLower t) chainWords = false) →
      parseNftablesRule line n = .ok rule → parseDirection named = some rule.chain := by
  intro h
  have hchain := h "add rule inet input_filter output tcp dport 443 accept".toList 1 "inet".toList
    "input_filter".toList "output".toList _ _ rfl (.inl (by decide)) (by decide) rfl (by decide) rfl
  cases hchain

end PacketGuard.Policy
