import PacketGuard.Rules.Outcomes
import PacketGuard.Rules.Rule

/-! # The normal form of a rule reads back

`normalize_rule` prints what `parse_rule_line` reads: the header fields with a
blank behind each, and the options in key order, their values in double quotes.
Comment removal, the search for the option block, the split at semicolons and
the removal of quotes each undo one layer of the printer.

The proof follows the layers from the outside in.  No piece of the text holds a
`#` or a `//` outside of quotes, so the line is its own clean text
(`removeComment_normalizeRule`).  No header field has a parenthesis, so the first
one opens the option block and the last one closes it (`parseRuleLine_block`).
Within the block the lexer is followed through its states, from one option to the
next (`splitOptionBodyFrom_cons`, `splitOptionBody_flatMap`).  And the header
tokens are the texts of parsed expressions, which read back.

Accepted rules have what that takes (`Accepted`), but for lists of nothing and for
characters in variables, keys and values that the printer cannot write;
`Reprintable` leaves these out.  The options come back in key order; that changes
no option that is looked up by its key, since the sort is stable
(`optionValue_sortOptions`).
-/
namespace PacketGuard.Rules
open PacketGuard.Core PacketGuard.Lib

/-! ## What the parser accepts -/

/-- Neither `!any` nor an empty list. -/
def PortExpr.Listed (e : PortExpr) : Prop :=
  (e.any = true → e.negated = false) ∧ (e.any = false → e.ranges ≠ [])

/-- Neither `!any` nor an empty list. -/
def AddressExpr.Listed (e : AddressExpr) : Prop :=
  (e.any = true → e.negated = false) ∧ (e.any = false → e.ranges ≠ [] ∨ e.vars ≠ [])

/-- The rules whose normal form reads back: no expression is `!any` or an empty
list, and variables, keys and values stay clear of the characters that structure
a line. -/
structure SignatureRule.Reprintable (rule : SignatureRule) : Prop where
  source : rule.source.Listed
  sourcePorts : rule.sourcePorts.Listed
  destination : rule.destination.Listed
  destinationPorts : rule.destinationPorts.Listed
  var : ∀ v ∈ rule.source.vars ++ rule.destination.vars,
    ∃ name, v = '$' :: name ∧ ∀ c ∈ name, isAlnum c = true ∨ c = '_'
  key : ∀ opt ∈ rule.options, ∀ c ∈ opt.key, isAlnum c = true ∨ c = '_' ∨ c = '.' ∨ c = '-'
  value : ∀ opt ∈ rule.options, ∀ c ∈ opt.value, c ≠ '"' ∧ c ≠ '\\'

/-- A parsed port expression that is `Listed` prints and reads back. -/
theorem printable_of_parsePortExpr {token : Str} {e : PortExpr} (h : parsePortExpr token = .ok e)
    (hlisted : e.Listed) : e.Printable := by
  obtain ⟨hany, hrange⟩ := (parsePortExpr_outcome token).of_eq_ok h
  exact ⟨fun htrue => ⟨hlisted.1 htrue, hany htrue⟩, hlisted.2, hrange⟩

/-- A parsed address expression that is `Listed`, with plain variables, prints and
reads back. -/
theorem printable_of_parseAddressExpr {token : Str} {e : AddressExpr}
    (h : parseAddressExpr token = .ok e) (hlisted : e.Listed)
    (hvar : ∀ v ∈ e.vars, ∃ name, v = '$' :: name ∧ ∀ c ∈ name, isAlnum c = true ∨ c = '_') :
    e.Printable := by
  obtain ⟨hany, hrange⟩ := (parseAddressExpr_outcome token).of_eq_ok h
  exact ⟨fun htrue => ⟨hlisted.1 htrue, hany htrue⟩, hlisted.2, hrange, hvar⟩

/-! ## Accepted rules -/

/-- The fields that are read from the options are those of the options. -/
def SignatureRule.Derived (rule : SignatureRule) : Prop :=
  rule = withOptions
    { action := rule.action, protocol := rule.protocol, source := rule.source
      sourcePorts := rule.sourcePorts, direction := rule.direction
      destination := rule.destination, destinationPorts := rule.destinationPorts
      raw := rule.raw, line := rule.line } rule.options

/-- What `parse_rule_line` returns. -/
structure Accepted (rule : SignatureRule) : Prop where
  action : parseAction (actionName rule.action) = some rule.action
  protocol : parseProtocol (protocolName rule.protocol) = some rule.protocol
  direction : rule.direction = "->".toList ∨ rule.direction = "<>".toList
  source : ∃ token, parseAddressExpr token = .ok rule.source
  sourcePorts : ∃ token, parsePortExpr token = .ok rule.sourcePorts
  destination : ∃ token, parseAddressExpr token = .ok rule.destination
  destinationPorts : ∃ token, parsePortExpr token = .ok rule.destinationPorts
  key : ∀ opt ∈ rule.options, opt.key ≠ [] ∧ toLower opt.key = opt.key
  derived : rule.Derived

theorem parseAction_actionName {token : Str} {action : RuleAction}
    (h : parseAction token = some action) : parseAction (actionName action) = some action := by
  cases action with
  | unknown =>
    unfold parseAction at h
    simp only at h
    split_ifs at h <;> cases h
  | _ => rfl

theorem parseProtocol_protocolName {token : Str} {protocol : RuleProtocol}
    (h : parseProtocol token = some protocol) :
    parseProtocol (protocolName protocol) = some protocol := by
  cases protocol with
  | unknown =>
    unfold parseProtocol at h
    simp only at h
    split_ifs at h <;> cases h
  | _ => rfl

theorem required_eq_ok {α : Type} {msg : String} {o : Option α} {x : α}
    (h : required msg o = .ok x) : o = some x := by
  cases o with
  | none => cases h
  | some y =>
    cases h
    rfl

/-- The header fields of an accepted rule. -/
theorem accepted_of_readHeader {raw : Str} {line : Nat} {tokens : List Str} {rule : SignatureRule}
    (h : readHeader raw line tokens = .ok rule) {options : List RuleOption}
    (hkey : ∀ opt ∈ options, opt.key ≠ [] ∧ toLower opt.key = opt.key) :
    Accepted (withOptions rule options) := by
  unfold readHeader at h
  split at h
  · obtain ⟨action, haction, h⟩ := bind_eq_ok h
    obtain ⟨protocol, hprotocol, h⟩ := bind_eq_ok h
    obtain ⟨source, hsource, h⟩ := bind_eq_ok h
    obtain ⟨sourcePorts, hsourcePorts, h⟩ := bind_eq_ok h
    obtain ⟨direction, hdirection, h⟩ := bind_eq_ok h
    obtain ⟨destination, hdestination, h⟩ := bind_eq_ok h
    obtain ⟨destinationPorts, hdestinationPorts, h⟩ := bind_eq_ok h
    cases h
    refine ⟨parseAction_actionName (required_eq_ok haction),
      parseProtocol_protocolName (required_eq_ok hprotocol), ?_, ⟨_, hsource⟩, ⟨_, hsourcePorts⟩,
      ⟨_, hdestination⟩, ⟨_, hdestinationPorts⟩, hkey, rfl⟩
    unfold parseDirection at hdirection
    split at hdirection
    · cases hdirection
    · rename_i hknown
      cases hdirection
      by_contra hneither
      rw [not_or] at hneither
      exact hknown hneither
  · cases h

theorem keys_parseOptions (body : Str) (line : Nat) :
    ∀ opt ∈ (parseOptions body true line).1, opt.key ≠ [] ∧ toLower opt.key = opt.key := by
  intro opt hopt
  obtain ⟨hmem, hkey⟩ := List.mem_filter.mp hopt
  obtain ⟨part, -, rfl⟩ := List.mem_map.mp hmem
  refine ⟨by simpa using hkey, ?_⟩
  unfold parseOption
  split <;> exact toLower_toLower _

theorem accepted_of_parseRuleLine {line : Str} {lineNumber : Nat} {rule : SignatureRule}
    (h : parseRuleLine line lineNumber = .ok rule) : Accepted rule := by
  unfold parseRuleLine at h
  simp only at h
  split at h
  · cases h
  split at h
  · split at h
    · cases h
    · split at h
      · cases h
      · rename_i base hbase
        cases h
        exact accepted_of_readHeader hbase (keys_parseOptions _ _)
  · cases h

/-! ## The sort -/

theorem pairwise_sortOptions (options : List RuleOption) :
    (sortOptions options).Pairwise fun a b => a.key ≤ b.key := by
  have htotal : Std.Total fun a b : RuleOption => a.key ≤ b.key := ⟨fun a b => le_total a.key b.key⟩
  have htrans : IsTrans RuleOption fun a b => a.key ≤ b.key := ⟨fun _ _ _ => le_trans⟩
  exact List.pairwise_insertionSort _ options

theorem sortOptions_sortOptions (options : List RuleOption) :
    sortOptions (sortOptions options) = sortOptions options :=
  (pairwise_sortOptions options).insertionSort_eq

/-- **The sort is stable**: options with one key stay in order. -/
theorem filter_sortOptions (options : List RuleOption) (key : Str) :
    (sortOptions options).filter (·.key == key) = options.filter (·.key == key) := by
  have htotal : Std.Total fun a b : RuleOption => a.key ≤ b.key := ⟨fun a b => le_total a.key b.key⟩
  have htrans : IsTrans RuleOption fun a b => a.key ≤ b.key := ⟨fun _ _ _ => le_trans⟩
  have hequal : (options.filter (·.key == key)).Pairwise fun a b => a.key ≤ b.key := by
    refine List.pairwise_iff_forall_sublist.mpr fun {a b} hab => ?_
    have ha := (List.mem_filter.mp (hab.subset (by simp : a ∈ [a, b]))).2
    have hb := (List.mem_filter.mp (hab.subset (by simp : b ∈ [a, b]))).2
    rw [beq_iff_eq] at ha hb
    rw [ha, hb]
  -- a sorted sublist stays one, and it has as many elements as the right-hand side
  have hsub : (options.filter (·.key == key)).Sublist (sortOptions options) :=
    List.sublist_insertionSort hequal List.filter_sublist
  have hsub' := hsub.filter (·.key == key)
  rw [List.filter_filter] at hsub'
  simp only [Bool.and_self] at hsub'
  refine (hsub'.eq_of_length ?_).symm
  exact ((List.perm_insertionSort _ options).filter _).length_eq.symm

theorem optionValue_sortOptions (options : List RuleOption) (key : Str) :
    optionValue (sortOptions options) key = optionValue options key := by
  have hfilter := congrArg List.head? (filter_sortOptions options key)
  rw [List.head?_filter, List.head?_filter] at hfilter
  rw [optionValue, optionValue, hfilter]

/-- The fields that are read from the options do not depend on the order of the
keys. -/
theorem withOptions_sortOptions {rule : SignatureRule} (h : rule.Derived) (raw : Str) (line : Nat) :
    withOptions
        { action := rule.action, protocol := rule.protocol, source := rule.source
          sourcePorts := rule.sourcePorts, direction := rule.direction
          destination := rule.destination, destinationPorts := rule.destinationPorts
          raw := raw, line := line } (sortOptions rule.options) =
      { rule with options := sortOptions rule.options, raw := raw, line := line } := by
  unfold SignatureRule.Derived at h
  conv_rhs => rw [h]
  simp only [withOptions, optionValue_sortOptions]

/-! ## The option block -/

/-- An option as the parser returns it, with a plain key and a value that its
quotes can hold. -/
structure RuleOption.Printable (opt : RuleOption) : Prop where
  nonempty : opt.key ≠ []
  lower : toLower opt.key = opt.key
  key : ∀ c ∈ opt.key, isAlnum c = true ∨ c = '_' ∨ c = '.' ∨ c = '-'
  value : ∀ c ∈ opt.value, c ≠ '"' ∧ c ≠ '\\'

theorem RuleOption.Printable.key_ne {opt : RuleOption} (h : opt.Printable) {d : Char}
    (hd : isAlnum d = false ∧ d ≠ '_' ∧ d ≠ '.' ∧ d ≠ '-') : ∀ c ∈ opt.key, c ≠ d := by
  rintro c hc rfl
  obtain ⟨halnum, hrest⟩ := hd
  rcases h.key c hc with hkey | hkey | hkey | hkey
  · rw [halnum] at hkey
    cases hkey
  · exact hrest.1 hkey
  · exact hrest.2.1 hkey
  · exact hrest.2.2 hkey

theorem RuleOption.Printable.noSpace_key {opt : RuleOption} (h : opt.Printable) :
    NoSpace opt.key := by
  intro c hc
  rcases h.key c hc with hkey | rfl | rfl | rfl
  · exact isSpace_of_isAlnum hkey
  all_goals rfl

/-- `in_quote` and `escaped` after a character. -/
def optionStep (s : Bool × Bool) (c : Char) : Bool × Bool :=
  if s.2 then (s.1, false)
  else if c = '\\' then (s.1, true)
  else if c = '"' then (!s.1, false)
  else (s.1, false)

/-- The loop of `split_option_body` steps through these states, and cuts at a
semicolon in the first. -/
theorem splitOptionBodyFrom_cons (cur : Str) (s : Bool × Bool) (c : Char) (rest : Str) :
    splitOptionBodyFrom cur s.1 s.2 (c :: rest) =
      if c = ';' ∧ s = (false, false)
        then trimmedPart cur ++ splitOptionBodyFrom [] false false rest
      else splitOptionBodyFrom (cur ++ [c]) (optionStep s c).1 (optionStep s c).2 rest := by
  obtain ⟨inQuote, escaped⟩ := s
  rw [splitOptionBodyFrom]
  cases escaped with
  | true => simp [optionStep]
  | false =>
    by_cases hback : c = '\\'
    · simp [optionStep, hback]
    by_cases hquote : c = '"'
    · simp [optionStep, hquote]
    · cases inQuote <;> simp [optionStep, hback, hquote]

/-- Text without quotes, backslashes and semicolons is one piece. -/
theorem splitOptionBodyFrom_append {cur text : Str} {inQuote : Bool}
    (h : ∀ c ∈ text, c ≠ '"' ∧ c ≠ '\\' ∧ (inQuote = true ∨ c ≠ ';')) (rest : Str) :
    splitOptionBodyFrom cur inQuote false (text ++ rest) =
      splitOptionBodyFrom (cur ++ text) inQuote false rest := by
  induction text generalizing cur with
  | nil => simp
  | cons c text ih =>
    obtain ⟨hquote, hback, hsemi⟩ := h c (by simp)
    have hgo : ¬ (c = ';' ∧ (inQuote, false) = (false, false)) := by
      rintro ⟨rfl, hopen⟩
      rcases hsemi with rfl | hsemi
      · cases hopen
      · exact hsemi rfl
    have hstep : optionStep (inQuote, false) c = (inQuote, false) := by
      simp [optionStep, hback, hquote]
    rw [List.cons_append, splitOptionBodyFrom_cons cur (inQuote, false) c, if_neg hgo, hstep,
      ih fun d hd => h d (by simp [hd]), List.append_assoc, List.singleton_append]

/-- One option, up to the semicolon behind it. -/
theorem splitOptionBodyFrom_optionPart {opt : RuleOption} (h : opt.Printable) (cur rest : Str) :
    splitOptionBodyFrom cur false false (optionPart opt ++ ';' :: rest) =
      trimmedPart (cur ++ optionPart opt) ++ splitOptionBodyFrom [] false false rest := by
  have hkey : ∀ c ∈ opt.key, c ≠ '"' ∧ c ≠ '\\' ∧ (false = true ∨ c ≠ ';') := fun c hc =>
    ⟨h.key_ne (by decide) c hc, h.key_ne (by decide) c hc, Or.inr (h.key_ne (by decide) c hc)⟩
  have hsemi : ∀ cur, splitOptionBodyFrom cur false false (';' :: rest) =
      trimmedPart cur ++ splitOptionBodyFrom [] false false rest := fun _ => rfl
  unfold optionPart
  -- the printer leaves the value `true` out, and puts any other in quotes
  by_cases htrue : opt.value = "true".toList
  · rw [if_neg (not_not.mpr htrue), List.append_nil, splitOptionBodyFrom_append hkey, hsemi]
  · have hvalue : ∀ c ∈ opt.value, c ≠ '"' ∧ c ≠ '\\' ∧ (true = true ∨ c ≠ ';') := fun c hc =>
      ⟨(h.value c hc).1, (h.value c hc).2, Or.inl rfl⟩
    have hopen : ∀ cur tail, splitOptionBodyFrom cur false false (":\"".toList ++ tail) =
        splitOptionBodyFrom (cur ++ ":\"".toList) true false tail := by
      intro cur tail
      show splitOptionBodyFrom (cur ++ [':'] ++ ['"']) true false tail = _
      rw [List.append_assoc]
      rfl
    have hclose : ∀ cur tail, splitOptionBodyFrom cur true false ('"' :: tail) =
        splitOptionBodyFrom (cur ++ ['"']) false false tail := fun _ _ => rfl
    rw [if_pos htrue, List.append_assoc, splitOptionBodyFrom_append hkey, List.append_assoc, hopen,
      List.append_assoc opt.value, splitOptionBodyFrom_append hvalue, List.singleton_append, hclose,
      hsemi]
    simp

theorem trimmed_optionPart {opt : RuleOption} (h : opt.Printable) : Trimmed (optionPart opt) := by
  unfold optionPart
  constructor
  · intro c hc
    rw [List.head?_append_of_ne_nil _ h.nonempty] at hc
    exact h.noSpace_key c (List.mem_of_head? hc)
  · intro c hc
    by_cases htrue : opt.value = "true".toList
    · rw [if_neg (not_not.mpr htrue), List.append_nil] at hc
      exact h.noSpace_key c (List.mem_of_getLast? hc)
    · rw [if_pos htrue, ← List.append_assoc, ← List.append_assoc, List.getLast?_concat] at hc
      cases hc
      rfl

theorem optionPart_ne_nil {opt : RuleOption} (h : opt.Printable) : optionPart opt ≠ [] := by
  unfold optionPart
  simp [h.nonempty]

/-- **The split of a printed option block** gives its options back. -/
theorem splitOptionBody_flatMap {options : List RuleOption} (h : ∀ opt ∈ options, opt.Printable) :
    splitOptionBody (options.flatMap optionText) = options.map optionPart := by
  -- the blank behind each semicolon is still in `cur` when the next option is read
  have hloop : ∀ cur, Blank cur →
      splitOptionBodyFrom cur false false (options.flatMap optionText) =
        options.map optionPart := by
    induction options with
    | nil =>
      intro cur hblank
      have htrim : trim cur = [] := by
        rw [trim, List.dropWhile_eq_nil_iff.mpr hblank]
        rfl
      show trimmedPart cur = []
      rw [trimmedPart, htrim]
      rfl
    | cons opt options ih =>
      intro cur hblank
      have hopt := h opt (by simp)
      have hpart : trimmedPart (cur ++ optionPart opt) = [optionPart opt] := by
        have htrim := trim_blank_append hblank (trimmed_optionPart hopt)
          (fun _ hc => absurd hc List.not_mem_nil) (optionPart_ne_nil hopt) (t := [])
        rw [List.append_nil] at htrim
        rw [trimmedPart, htrim, if_neg (by simp [optionPart_ne_nil hopt])]
      have hsemi : optionText opt ++ options.flatMap optionText =
          optionPart opt ++ ';' :: ([' '] ++ options.flatMap optionText) := by
        simp [optionText]
      have hspace : splitOptionBodyFrom [] false false ([' '] ++ options.flatMap optionText) =
          splitOptionBodyFrom [' '] false false (options.flatMap optionText) := rfl
      have hrest := ih (fun o ho => h o (by simp [ho])) [' '] fun c hc => by
        rw [List.mem_singleton.mp hc]
        rfl
      rw [List.flatMap_cons, hsemi, splitOptionBodyFrom_optionPart hopt, hpart, hspace, hrest]
      rfl
  exact hloop [] fun _ hc => absurd hc List.not_mem_nil

/-- Quotes keep the blanks between them. -/
theorem trim_quoted (value : Str) : trim ('"' :: (value ++ ['"'])) = '"' :: (value ++ ['"']) := by
  refine trim_eq_self ⟨fun c hc => ?_, fun c hc => ?_⟩
  · cases hc
    rfl
  · rw [← List.cons_append, List.getLast?_concat] at hc
    cases hc
    rfl

theorem stripQuotes_quoted (value : Str) : stripQuotes ('"' :: (value ++ ['"'])) = value := by
  have hlast : ('"' :: (value ++ ['"'])).getLast? = some '"' := by
    rw [← List.cons_append, List.getLast?_concat]
  unfold stripQuotes
  simp [trim_quoted, hlast, substr]

/-- **A printed option reads back.** -/
theorem parseOption_optionPart {opt : RuleOption} (h : opt.Printable) :
    parseOption (optionPart opt) = opt := by
  have hcolon : ':' ∉ opt.key := fun hc => h.key_ne (by decide) ':' hc rfl
  have htrim : trim opt.key = opt.key := trim_eq_self h.noSpace_key.trimmed
  obtain ⟨key, value⟩ := opt
  unfold optionPart
  by_cases htrue : value = "true".toList
  · rw [if_neg (not_not.mpr htrue), List.append_nil, parseOption, find_eq_none hcolon]
    simp only at htrim ⊢
    rw [htrim, h.lower, htrue]
  · have htext : key ++ (":\"".toList ++ (value ++ ['"'])) = key ++ ':' :: '"' ::
        (value ++ ['"']) := rfl
    have hvalue : substr (key.length + 1) (key ++ ':' :: '"' :: (value ++ ['"'])) =
        '"' :: (value ++ ['"']) := by
      simp [substr, ← List.drop_drop]
    rw [if_pos htrue, htext, parseOption, find_append_cons hcolon]
    simp only [hvalue, trim_quoted, stripQuotes_quoted]
    simp only [List.take_left] at htrim ⊢
    rw [htrim, h.lower]

/-! ## The line -/

/-- The fields of the header, as texts. -/
def headerTokens (rule : SignatureRule) : List Str :=
  [actionName rule.action, protocolName rule.protocol, rule.source.toString,
    rule.sourcePorts.toString, rule.direction, rule.destination.toString,
    rule.destinationPorts.toString]

theorem normalizeRule_eq (rule : SignatureRule) :
    normalizeRule rule = (headerTokens rule).flatMap (· ++ [' ']) ++
      '(' :: ((sortOptions rule.options).flatMap optionText ++ [')']) := by
  simp [normalizeRule, headerTokens]

/-- A header field: one token, without a parenthesis or a comment in it. -/
structure HeaderToken (t : Str) : Prop where
  nonempty : t ≠ []
  noSpace : NoSpace t
  noParen : '(' ∉ t
  uncommented : Uncommented t

theorem headerToken_of_quiet {t : Str} (hne : t ≠ [])
    (h : ∀ c ∈ t, Quiet c ∧ isSpace c = false ∧ c ≠ '(') : HeaderToken t :=
  ⟨hne, fun c hc => (h c hc).2.1, fun hc => (h _ hc).2.2 rfl,
    uncommented_of_quiet fun c hc => (h c hc).1⟩

theorem quiet_of_isAlnum {c : Char} (h : isAlnum c = true) : Quiet c := by
  refine ⟨?_, ?_, ?_, ?_, ?_⟩ <;>
    · rintro rfl
      cases h

theorem headerToken_of_letters {t : Str} (hne : t ≠ []) (h : t.all isAlnum = true) :
    HeaderToken t := by
  refine headerToken_of_quiet hne fun c hc => ?_
  have hletter := List.all_eq_true.mp h c hc
  refine ⟨quiet_of_isAlnum hletter, isSpace_of_isAlnum hletter, ?_⟩
  rintro rfl
  cases hletter

theorem headerToken_actionName (action : RuleAction) : HeaderToken (actionName action) := by
  cases action <;> exact headerToken_of_letters (by decide) rfl

theorem headerToken_protocolName (protocol : RuleProtocol) :
    HeaderToken (protocolName protocol) := by
  cases protocol <;> exact headerToken_of_letters (by decide) rfl

theorem headerToken_direction {direction : Str}
    (h : direction = "->".toList ∨ direction = "<>".toList) : HeaderToken direction := by
  rcases h with rfl | rfl <;>
    exact headerToken_of_quiet (by decide) (by simp [Quiet, isSpace])

theorem Uncommented.joined {pieces : List Str} (h : ∀ p ∈ pieces, Uncommented p) :
    Uncommented ([','].intercalate pieces) := by
  cases pieces with
  | nil => exact Uncommented.nil
  | cons p pieces =>
    have hcomma : Uncommented [','] := uncommented_of_quiet (by simp [Quiet])
    rw [intercalate_cons_eq]
    exact (h p (by simp)).append
      (Uncommented.flatMap fun q hq => hcomma.append (h q (by simp [hq])))

/-- A printed list is a header field. -/
theorem headerToken_list {pieces : List Str} (hlist : ListText pieces) (negated : Bool)
    (h : ∀ p ∈ pieces, '(' ∉ p ∧ Uncommented p) :
    HeaderToken ((if negated then ['!'] else []) ++ [','].intercalate pieces) := by
  have hmark : HeaderToken ['!'] :=
    headerToken_of_quiet (by decide) (by simp [Quiet, isSpace])
  have hbody : Uncommented ([','].intercalate pieces) := Uncommented.joined fun p hp => (h p hp).2
  have hparen : '(' ∉ [','].intercalate pieces := by
    intro hmem
    rcases ListText.mem_joined hmem with hc | ⟨p, hp, hc⟩
    · cases hc
    · exact (h p hp).1 hc
  cases negated with
  | false => exact ⟨hlist.listPieces.joined_ne_nil, hlist.noSpace_joined, hparen, hbody⟩
  | true =>
    refine ⟨by simp, hmark.noSpace.append hlist.noSpace_joined, ?_, hmark.uncommented.append hbody⟩
    intro hmem
    rcases List.mem_append.mp hmem with hmem | hmem
    · exact hmark.noParen hmem
    · exact hparen hmem

theorem headerToken_ports {e : PortExpr} (h : e.Printable) : HeaderToken e.toString := by
  obtain ⟨any, negated, ranges⟩ := e
  cases any with
  | true =>
    obtain ⟨hneg, -⟩ := h.ofAny rfl
    cases hneg
    exact headerToken_of_letters (t := "any".toList) (by decide) rfl
  | false =>
    refine headerToken_list (listText_ports h rfl) negated fun p hp => ?_
    obtain ⟨r, -, rfl⟩ := List.mem_map.mp hp
    constructor
    · intro hmem
      rcases mem_portRangeText hmem with hc | hc <;> cases hc
    · refine uncommented_of_quiet fun c hc => ?_
      rcases mem_portRangeText hc with hc | rfl
      · exact quiet_of_isAlnum (by simp [Char.isAlphanum, hc])
      · simp [Quiet]

theorem uncommented_cidrToString (r : CIDRRange) : Uncommented r.toString := by
  have hdigit : ∀ n, ∀ c ∈ natToString n, Quiet c := fun n c hc =>
    quiet_of_isAlnum (by
      simp [Char.isAlphanum, Nat.isDigit_of_mem_toDigits (by decide) (by decide) hc])
  have haddress : ∀ ip, ∀ c ∈ ipv4ToString ip, Quiet c := by
    intro ip c hc
    rcases mem_ipv4ToString hc with hc | rfl
    · exact quiet_of_isAlnum (by simp [Char.isAlphanum, hc])
    · simp [Quiet]
  unfold CIDRRange.toString
  rw [List.append_assoc, List.singleton_append]
  exact uncommented_slash (haddress _) (ipv4ToString_ne_nil _) (hdigit _) (natToString_ne_nil _)

theorem headerToken_addresses {e : AddressExpr} (h : e.Printable) : HeaderToken e.toString := by
  obtain ⟨any, negated, ranges, vars⟩ := e
  cases any with
  | true =>
    obtain ⟨hneg, -, -⟩ := h.ofAny rfl
    cases hneg
    exact headerToken_of_letters (t := "any".toList) (by decide) rfl
  | false =>
    refine headerToken_list (listText_addresses h rfl) negated fun p hp => ⟨?_, ?_⟩
    · intro hmem
      rcases mem_addressText h hp hmem with hc | hc | hc | hc | hc <;> cases hc
    · rcases List.mem_append.mp hp with hp | hp
      · obtain ⟨r, -, rfl⟩ := List.mem_map.mp hp
        exact uncommented_cidrToString r
      · obtain ⟨name, rfl, hname⟩ := h.var p hp
        refine uncommented_of_quiet fun c hc => ?_
        rcases List.mem_cons.mp hc with rfl | hc
        · simp [Quiet]
        rcases hname c hc with hc | rfl
        · exact quiet_of_isAlnum hc
        · simp [Quiet]

theorem uncommented_optionText {opt : RuleOption} (h : opt.Printable) :
    Uncommented (optionText opt) := by
  have hkey : Uncommented opt.key := by
    refine uncommented_of_quiet fun c hc => ?_
    rcases h.key c hc with hc | rfl | rfl | rfl
    · exact quiet_of_isAlnum hc
    all_goals simp [Quiet]
  have hend : Uncommented "; ".toList := uncommented_of_quiet (by simp [Quiet])
  have hcolon : Uncommented [':'] := uncommented_of_quiet (by simp [Quiet])
  unfold optionText optionPart
  by_cases htrue : opt.value = "true".toList
  · rw [if_neg (not_not.mpr htrue), List.append_nil]
    exact hkey.append hend
  · rw [if_pos htrue]
    exact (hkey.append (hcolon.append (uncommented_quoted h.value))).append hend

/-- The rule prints and reads back, field by field. -/
structure SignatureRule.Printable (rule : SignatureRule) : Prop where
  source : rule.source.Printable
  sourcePorts : rule.sourcePorts.Printable
  destination : rule.destination.Printable
  destinationPorts : rule.destinationPorts.Printable
  option : ∀ opt ∈ rule.options, opt.Printable

theorem printable_of_accepted {rule : SignatureRule} (ha : Accepted rule) (h : rule.Reprintable) :
    rule.Printable := by
  obtain ⟨_, hsource⟩ := ha.source
  obtain ⟨_, hsourcePorts⟩ := ha.sourcePorts
  obtain ⟨_, hdestination⟩ := ha.destination
  obtain ⟨_, hdestinationPorts⟩ := ha.destinationPorts
  constructor
  · exact printable_of_parseAddressExpr hsource h.source fun v hv => h.var v (by simp [hv])
  · exact printable_of_parsePortExpr hsourcePorts h.sourcePorts
  · exact printable_of_parseAddressExpr hdestination h.destination fun v hv =>
      h.var v (by simp [hv])
  · exact printable_of_parsePortExpr hdestinationPorts h.destinationPorts
  · intro opt hopt
    obtain ⟨hne, hlower⟩ := ha.key opt hopt
    exact ⟨hne, hlower, h.key opt hopt, h.value opt hopt⟩

theorem headerTokens_valid {rule : SignatureRule} (ha : Accepted rule) (h : rule.Printable) :
    ∀ t ∈ headerTokens rule, HeaderToken t := by
  intro t ht
  simp only [headerTokens, List.mem_cons, List.not_mem_nil, or_false] at ht
  rcases ht with rfl | rfl | rfl | rfl | rfl | rfl | rfl
  · exact headerToken_actionName _
  · exact headerToken_protocolName _
  · exact headerToken_addresses h.source
  · exact headerToken_ports h.sourcePorts
  · exact headerToken_direction ha.direction
  · exact headerToken_addresses h.destination
  · exact headerToken_ports h.destinationPorts

theorem option_mem_sortOptions {options : List RuleOption} {opt : RuleOption} :
    opt ∈ sortOptions options ↔ opt ∈ options := List.mem_insertionSort _

/-- The normal form is one line without comment and outer blanks. -/
theorem removeComment_normalizeRule {rule : SignatureRule} (ha : Accepted rule)
    (h : rule.Printable) :
    trim (removeComment (normalizeRule rule)) = normalizeRule rule := by
  have htokens := headerTokens_valid ha h
  have hblank : Uncommented [' '] := uncommented_of_quiet (by simp [Quiet])
  have hopen : Uncommented ['('] := uncommented_of_quiet (by simp [Quiet])
  have hclose : Uncommented [')'] := uncommented_of_quiet (by simp [Quiet])
  have hline : Uncommented (normalizeRule rule) := by
    rw [normalizeRule_eq, ← List.singleton_append]
    refine Uncommented.append ?_ (hopen.append (Uncommented.append ?_ hclose))
    · exact Uncommented.flatMap fun t ht => (htokens t ht).uncommented.append hblank
    · exact Uncommented.flatMap fun opt hopt =>
        uncommented_optionText (h.option opt (option_mem_sortOptions.mp hopt))
  rw [hline.removeComment_eq]
  refine trim_eq_self ⟨fun c hc => ?_, fun c hc => ?_⟩
  · have haction := headerToken_actionName rule.action
    have hfirst : (normalizeRule rule).head? = (actionName rule.action).head? := by
      rw [normalizeRule_eq, headerTokens, List.flatMap_cons, List.append_assoc, List.append_assoc,
        List.head?_append_of_ne_nil _ haction.nonempty]
    rw [hfirst] at hc
    exact haction.noSpace c (List.mem_of_head? hc)
  · rw [normalizeRule, List.getLast?_concat] at hc
    cases hc
    rfl

theorem readHeader_headerTokens {rule : SignatureRule} (ha : Accepted rule) (h : rule.Printable)
    (raw : Str) (line : Nat) :
    readHeader raw line (headerTokens rule) =
      .ok { action := rule.action, protocol := rule.protocol, source := rule.source
            sourcePorts := rule.sourcePorts, direction := rule.direction
            destination := rule.destination, destinationPorts := rule.destinationPorts
            raw := raw, line := line } := by
  have hdirection : parseDirection rule.direction = .ok rule.direction := by
    unfold parseDirection
    rcases ha.direction with hd | hd <;> rw [hd] <;> rfl
  unfold readHeader headerTokens
  simp only [ha.action, ha.protocol, required, parseAddressExpr_toString h.source,
    parsePortExpr_toString h.sourcePorts, hdirection, parseAddressExpr_toString h.destination,
    parsePortExpr_toString h.destinationPorts]
  rfl

/-- A line is read at its first opening and its last closing parenthesis. -/
theorem parseRuleLine_block {header body : Str} (hparen : '(' ∉ header)
    (hclean : trim (removeComment (header ++ '(' :: (body ++ [')']))) =
      header ++ '(' :: (body ++ [')'])) (lineNumber : Nat) :
    parseRuleLine (header ++ '(' :: (body ++ [')'])) lineNumber =
      match readHeader (header ++ '(' :: (body ++ [')'])) lineNumber
          (splitWs (collapseSpaces header)) with
      | .error e => .error e
      | .ok rule => .ok (withOptions rule (parseOptions body true lineNumber).1) := by
  have hfind := find_append_cons hparen (body ++ [')'])
  -- the body may hold parentheses, so the closing one is searched from the end
  have hrfind : rfind ')' (header ++ '(' :: (body ++ [')'])) =
      some (header ++ '(' :: body).length := by
    rw [← rfind_append_cons (List.not_mem_nil (a := ')')) (header ++ '(' :: body)]
    simp
  have hlength : (header ++ '(' :: body).length = header.length + 1 + body.length := by
    simp only [List.length_append, List.length_cons]
    omega
  have hbody : (substr (header.length + 1) (header ++ '(' :: (body ++ [')']))).take
      ((header ++ '(' :: body).length - header.length - 1) = body := by
    rw [hlength, show header.length + 1 + body.length - header.length - 1 = body.length by omega,
      substr, ← List.drop_drop, List.drop_left, List.drop_one, List.tail_cons, List.take_left]
  have hne : (header ++ '(' :: (body ++ [')'])).isEmpty = false := by simp
  unfold parseRuleLine
  simp only [hclean, hne, Bool.false_eq_true, if_false, hfind, hrfind, List.take_left, hbody]
  exact if_neg (by omega)

/-- The options of a printed block. -/
theorem parseOptions_flatMap {options : List RuleOption} (h : ∀ opt ∈ options, opt.Printable)
    (line : Nat) : (parseOptions (options.flatMap optionText) true line).1 = options := by
  have hread : options.map (parseOption ∘ optionPart) = options := by
    conv_rhs => rw [← List.map_id options]
    exact List.map_congr_left fun opt hopt => parseOption_optionPart (h opt hopt)
  simp only [parseOptions, if_true]
  rw [splitOptionBody_flatMap h, List.map_map, hread]
  exact List.filter_eq_self.mpr fun opt hopt => by simp [(h opt hopt).nonempty]

/-- A character of the header is one of a field, or the space between fields. -/
theorem notMem_header {c : Char} (hspace : c ≠ ' ') {tokens : List Str} (h : ∀ t ∈ tokens, c ∉ t) :
    c ∉ tokens.flatMap (· ++ [' ']) := by
  intro hmem
  obtain ⟨t, ht, hc⟩ := List.mem_flatMap.mp hmem
  rcases List.mem_append.mp hc with hc | hc
  · exact h t ht hc
  · exact hspace (List.mem_singleton.mp hc)

/-- **The normal form is read back**, with the options in key order. -/
theorem parseRuleLine_of_printable {rule : SignatureRule} (ha : Accepted rule) (hp : rule.Printable)
    (lineNumber : Nat) :
    parseRuleLine (normalizeRule rule) lineNumber =
      .ok { rule with
        options := sortOptions rule.options, raw := normalizeRule rule, line := lineNumber } := by
  have htokens := headerTokens_valid ha hp
  have hclean := removeComment_normalizeRule ha hp
  -- no header field has a parenthesis, so the first one opens the options
  have hparen : '(' ∉ (headerTokens rule).flatMap (· ++ [' ']) :=
    notMem_header (by decide) fun t ht => (htokens t ht).noParen
  have hsplit : splitWs (collapseSpaces ((headerTokens rule).flatMap (· ++ [' ']))) =
      headerTokens rule :=
    splitWs_collapseSpaces (by simp [headerTokens]) fun t ht =>
      ⟨(htokens t ht).noSpace, (htokens t ht).nonempty⟩
  have hoptions := parseOptions_flatMap
    (fun opt hopt => hp.option opt (option_mem_sortOptions.mp hopt)) lineNumber
  rw [normalizeRule_eq] at hclean
  have hread := parseRuleLine_block hparen hclean lineNumber
  rw [← normalizeRule_eq, hsplit, readHeader_headerTokens ha hp, hoptions] at hread
  rw [hread]
  exact congrArg Except.ok (withOptions_sortOptions ha.derived _ lineNumber)

/-- **The normal form round-trips.**  The normal form of an accepted rule is
accepted and gives the rule back, with its options in key order; and it is its
own normal form. -/
theorem parseRuleLine_normalizeRule {line : Str} {lineNumber : Nat} {rule : SignatureRule}
    (haccepted : parseRuleLine line lineNumber = .ok rule) (h : rule.Reprintable)
    (lineNumber' : Nat) :
    parseRuleLine (normalizeRule rule) lineNumber' =
        .ok { rule with
          options := sortOptions rule.options, raw := normalizeRule rule, line := lineNumber' } ∧
      normalizeRule { rule with
        options := sortOptions rule.options, raw := normalizeRule rule, line := lineNumber' } =
          normalizeRule rule := by
  have ha := accepted_of_parseRuleLine haccepted
  refine ⟨parseRuleLine_of_printable ha (printable_of_accepted ha h) lineNumber', ?_⟩
  simp only [normalizeRule, sortOptions_sortOptions]

/-- A rule with an address variable, a bare option and a value that holds what
separates options. -/
theorem parseRuleLine_normalizeRule_quoted : ∃ rule,
    parseRuleLine "alert tcp $H any <> any 80 (sid:1; msg:\"a;b#\"; nocase)".toList 1 = .ok rule ∧
    parseRuleLine (normalizeRule rule) 2 =
        .ok { rule with
          options := sortOptions rule.options, raw := normalizeRule rule, line := 2 } ∧
      normalizeRule { rule with
        options := sortOptions rule.options, raw := normalizeRule rule, line := 2 } =
          normalizeRule rule := by
  have hread : parseRuleLine "alert tcp $H any <> any 80 (sid:1; msg:\"a;b#\"; nocase)".toList 1 =
      .ok
        { action := .alert
          protocol := .tcp
          source := { any := false, vars := ["$H".toList] }
          direction := "<>".toList
          destinationPorts := { any := false, ranges := [(80, 80)] }
          options := [⟨"sid".toList, "1".toList⟩, ⟨"msg".toList, "a;b#".toList⟩,
            ⟨"nocase".toList, "true".toList⟩]
          msg := "a;b#".toList
          sid := 1
          raw := "alert tcp $H any <> any 80 (sid:1; msg:\"a;b#\"; nocase)".toList
          line := 1 } := rfl
  refine ⟨_, hread, parseRuleLine_normalizeRule hread ?_ 2⟩
  constructor
  · exact ⟨nofun, fun _ => Or.inr (by simp)⟩
  · exact ⟨fun _ => rfl, nofun⟩
  · exact ⟨fun _ => rfl, nofun⟩
  · exact ⟨nofun, fun _ => by simp⟩
  · simp
    decide
  · simp
    decide
  · simp

end PacketGuard.Rules
