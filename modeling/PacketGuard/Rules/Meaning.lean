import PacketGuard.Rules.Checked
import PacketGuard.Rules.Outcomes

/-! # What is left of an expression when it is printed

A parsed expression is read back from its text, with three exceptions.  `!any`,
which matches nothing, and a negated empty list, which matches everything, both
print as `!`; and an empty list that is not negated prints as the empty text,
which is no expression.

For the lone `!` the parsers read the first character of an empty string.  The
plain parsers go on with a negated empty list there, and under them texts are
compared (`AddressExpr.Read.toString_inj`): the printer gives one text to two
expressions, and to no others.  Whether an expression keeps its meaning is asked
of the checked parsers, for which the lone `!` is a fault
(`toString_keepsMeaning_iff`).
-/
namespace PacketGuard.Rules
open PacketGuard.Core PacketGuard.Lib

/-! ## Lists -/

/-- A list of no parts, negated or not: commas and white space, in brackets or not. -/
def ListsNothing (token : Str) : Prop :=
  ∀ c ∈ stripBrackets (readNegation (trim token)).2, c = ',' ∨ isSpace c = true

/-- The token negates `any`. -/
def NegatesAny (token : Str) : Prop := readNegation (trim token) = (true, "any".toList)

/-- The parts of a text without empty ones are blank when it has only commas and white space. -/
theorem forall_blank_split_iff {body : Str} :
    (∀ p ∈ split body ',', Blank p) ↔ ∀ c ∈ body, c = ',' ∨ isSpace c = true := by
  constructor
  · intro h c hc
    by_cases hcomma : c = ','
    · exact .inl hcomma
    · obtain ⟨p, hp, hcp⟩ := mem_splitOn hc hcomma
      have hne : p ≠ [] := List.ne_nil_of_mem hcp
      exact .inr (h p (mem_split_false.mpr ⟨hp, hne⟩) c hcp)
  · intro h p hp c hc
    obtain ⟨hmem, hne⟩ := of_mem_splitOn (mem_split_false.mp hp).1 hc
    exact (h c hmem).resolve_left hne

/-- A token, by what is behind its negation. -/
theorem negatesAny_iff {token t : Str} {negated : Bool}
    (h : readNegation (trim token) = (negated, t)) :
    NegatesAny token ↔ negated = true ∧ t = "any".toList := by
  rw [NegatesAny, h, Prod.mk.injEq]

theorem listsNothing_iff {token t : Str} {negated : Bool}
    (h : readNegation (trim token) = (negated, t)) :
    ListsNothing token ↔ t ≠ "any".toList ∧ ∀ p ∈ split (stripBrackets t) ',', Blank p := by
  rw [ListsNothing, h, forall_blank_split_iff, iff_and_self]
  rintro hnothing rfl
  rcases hnothing 'a' List.mem_cons_self with hc | hc <;> cases hc

/-! ## Printers with two exceptions -/

/-- Where one expression is read back as another one and one is not read at all, equal texts
are texts of equal expressions or of the pair that is mixed up. -/
theorem print_inj {Expr : Type} {Valid : Expr → Prop} {print : Expr → Str}
    {parse : Str → Result Expr}
    {notAny nothing notNothing : Expr}
    (hread : ∀ e, Valid e → e ≠ notAny → e ≠ nothing → parse (print e) = .ok e)
    (hnotAny : parse (print notAny) = .ok notNothing)
    (hnothing : ∃ status, parse (print nothing) = .error status) {e e' : Expr} (h : Valid e)
    (h' : Valid e')
    (heq : print e = print e') :
    e = e' ∨ (e = notAny ∧ e' = notNothing) ∨ (e = notNothing ∧ e' = notAny) := by
  -- an expression is read back from its text as one of three things
  have hcases : ∀ e, Valid e → (e = notAny ∧ parse (print e) = .ok notNothing) ∨
      (e = nothing ∧ ∃ status, parse (print e) = .error status) ∨ parse (print e) = .ok e := by
    intro e he
    by_cases heAny : e = notAny
    · exact .inl ⟨heAny, heAny ▸ hnotAny⟩
    by_cases heNothing : e = nothing
    · exact .inr (.inl ⟨heNothing, heNothing ▸ hnothing⟩)
    · exact .inr (.inr (hread e he heAny heNothing))
  rcases hcases e h with ⟨rfl, hparse⟩ | ⟨rfl, status, hparse⟩ | hparse <;> rw [heq] at hparse
  · rcases hcases e' h' with ⟨rfl, -⟩ | ⟨-, status, hparse'⟩ | hparse'
    · exact .inl rfl
    · cases hparse.symm.trans hparse'
    · cases hparse.symm.trans hparse'
      exact .inr (.inl ⟨rfl, rfl⟩)
  · rcases hcases e' h' with ⟨-, hparse'⟩ | ⟨rfl, -⟩ | hparse'
    · cases hparse.symm.trans hparse'
    · exact .inl rfl
    · cases hparse.symm.trans hparse'
  · rcases hcases e' h' with ⟨rfl, hparse'⟩ | ⟨-, status, hparse'⟩ | hparse'
    · cases hparse.symm.trans hparse'
      exact .inr (.inr ⟨rfl, rfl⟩)
    · cases hparse.symm.trans hparse'
    · cases hparse.symm.trans hparse'
      exact .inl rfl

/-- The characters of the text of an expression. -/
theorem forall_mem_listed {P : Char → Prop} {pieces : List Str} (any negated : Bool)
    (hany : ∀ c ∈ "any".toList, P c) (hbang : P '!') (hcomma : P ',')
    (h : ∀ p ∈ pieces, ∀ c ∈ p, P c) :
    ∀ c ∈ if any && !negated then "any".toList
      else (if negated then ['!'] else []) ++ [','].intercalate pieces, P c := by
  intro c hc
  split at hc
  · exact hany c hc
  rcases List.mem_append.mp hc with hc | hc
  · cases negated with
    | true =>
      cases List.mem_singleton.mp hc
      exact hbang
    | false => cases hc
  · rcases ListText.mem_joined hc with rfl | ⟨p, hp, hc⟩
    · exact hcomma
    · exact h p hp c hc

/-- The text of an expression without white space in its pieces has none. -/
theorem noSpace_listed {pieces : List Str} (any negated : Bool) (h : ∀ p ∈ pieces, NoSpace p) :
    NoSpace
      (if any && !negated then "any".toList
      else (if negated then ['!'] else []) ++ [','].intercalate pieces) :=
  forall_mem_listed any negated (by simp [isSpace]) rfl rfl h

/-! ## Addresses -/

/-- A parsed address expression: `any` has no lists, and the lists hold what was parsed. -/
structure AddressExpr.Read (e : AddressExpr) : Prop where
  ofAny : e.any = true → e.ranges = [] ∧ e.vars = []
  parts : e.Parts

/-- `!any`. -/
def AddressExpr.notAny : AddressExpr := ⟨true, true, [], []⟩

/-- The empty list. -/
def AddressExpr.nothing : AddressExpr := ⟨false, false, [], []⟩

/-- The negated empty list. -/
def AddressExpr.notNothing : AddressExpr := ⟨false, true, [], []⟩

theorem AddressExpr.Parts.of_nil {e : AddressExpr} (hranges : e.ranges = []) (hvars : e.vars = []) :
    e.Parts := by
  refine ⟨fun r hr => ?_, fun v hv => ?_⟩
  · rw [hranges] at hr
    cases hr
  · rw [hvars] at hv
    cases hv

theorem AddressExpr.Parts.addVar {e : AddressExpr} (h : e.Parts) {v : Str}
    (hv : v.head? = some '$' ∧ Trimmed v ∧ ',' ∉ v) : { e with vars := e.vars ++ [v] }.Parts := by
  refine ⟨h.range, fun w hw => ?_⟩
  rcases List.mem_append.mp hw with hw | hw
  · exact h.var w hw
  · rwa [List.mem_singleton.mp hw]

theorem AddressExpr.Parts.addRange {e : AddressExpr} (h : e.Parts) {r : CIDRRange}
    (hr : r.prefixLength ≤ 32 ∧ r.masked = r) : { e with ranges := e.ranges ++ [r] }.Parts := by
  refine ⟨fun s hs => ?_, h.var⟩
  rcases List.mem_append.mp hs with hs | hs
  · exact h.range s hs
  · rwa [List.mem_singleton.mp hs]

section
variable {token : Str} {e : AddressExpr}

/-- The loop over parts without commas keeps the flags, adds what it parses, and adds
nothing for blank parts only. -/
theorem parseAddressParts_ok {parts : List Str} {expr : AddressExpr} (hcomma : ∀ p ∈ parts, ',' ∉ p)
    (hexpr : expr.Parts) (h : parseAddressParts expr parts = .ok e) :
    e.Parts ∧ e.any = expr.any ∧ e.negated = expr.negated ∧
      (e.ranges = [] ∧ e.vars = [] ↔
        (expr.ranges = [] ∧ expr.vars = []) ∧ ∀ p ∈ parts, Blank p) := by
  induction parts generalizing expr with
  | nil =>
    cases h
    exact ⟨hexpr, rfl, rfl, by simp⟩
  | cons part parts ih =>
    obtain ⟨hpart, hparts⟩ := List.forall_mem_cons.mp hcomma
    rw [parseAddressParts] at h
    simp only [List.isEmpty_iff] at h
    rw [List.forall_mem_cons, ← trim_eq_nil_iff]
    by_cases hblank : trim part = []
    · rw [if_pos hblank] at h
      obtain ⟨hread, hany, hneg, hnone⟩ := ih hparts hexpr h
      exact ⟨hread, hany, hneg, by rw [hnone, and_iff_right hblank]⟩
    rw [if_neg hblank] at h
    by_cases hvar : (trim part).head? = some '$'
    · rw [if_pos hvar] at h
      have hnew : (trim part).head? = some '$' ∧ Trimmed (trim part) ∧ ',' ∉ trim part :=
        ⟨hvar, trimmed_trim part, fun hc => hpart (mem_of_mem_trim hc)⟩
      obtain ⟨hread, hany, hneg, hnone⟩ := ih hparts (hexpr.addVar hnew) h
      refine ⟨hread, hany, hneg, ?_⟩
      rw [hnone]
      simp [hblank]
    · rw [if_neg hvar] at h
      cases hcidr : parseCidr (trim part) with
      | none =>
        rw [hcidr] at h
        cases h
      | some range =>
        rw [hcidr] at h
        obtain ⟨hread, hany, hneg, hnone⟩ := ih hparts (hexpr.addRange (parseCidr_valid hcidr)) h
        refine ⟨hread, hany, hneg, ?_⟩
        rw [hnone]
        simp [hblank]

/-- The variables of a list are parts of it. -/
theorem noSpace_vars_of_parts {parts : List Str} {expr : AddressExpr}
    (h : parseAddressParts expr parts = .ok e) (hexpr : ∀ v ∈ expr.vars, NoSpace v)
    (hparts : ∀ p ∈ parts, NoSpace p) : ∀ v ∈ e.vars, NoSpace v := by
  induction parts generalizing expr with
  | nil =>
    cases h
    exact hexpr
  | cons part parts ih =>
    obtain ⟨hpart, hparts⟩ := List.forall_mem_cons.mp hparts
    rw [parseAddressParts] at h
    simp only [List.isEmpty_iff] at h
    by_cases hblank : trim part = []
    · rw [if_pos hblank] at h
      exact ih h hexpr hparts
    rw [if_neg hblank] at h
    by_cases hvar : (trim part).head? = some '$'
    · rw [if_pos hvar] at h
      refine ih h (fun v hv => ?_) hparts
      rcases List.mem_append.mp hv with hv | hv
      · exact hexpr v hv
      · rw [List.mem_singleton.mp hv]
        exact noSpace_trim hpart
    rw [if_neg hvar] at h
    cases hcidr : parseCidr (trim part) with
    | none =>
      rw [hcidr] at h
      cases h
    | some range =>
      rw [hcidr] at h
      exact ih h hexpr hparts

/-- What is behind the negation, without its brackets. -/
theorem noSpace_list {t : Str} {negated : Bool} (htoken : NoSpace token)
    (hneg : readNegation (trim token) = (negated, t)) : NoSpace (stripBrackets t) := by
  have hrest : NoSpace t := by
    unfold readNegation at hneg
    split at hneg
    · cases hneg
      exact noSpace_trim fun c hc => noSpace_trim htoken c (List.mem_of_mem_drop hc)
    · cases hneg
      exact noSpace_trim htoken
  unfold stripBrackets
  split
  · exact fun c hc => hrest c (List.mem_of_mem_drop (List.mem_of_mem_take hc))
  · exact hrest

/-- A token that is read is `any` or a list, behind its negation. -/
theorem exists_of_parseAddressExpr (h : parseAddressExpr token = .ok e) :
    ∃ negated t, readNegation (trim token) = (negated, t) ∧
      (t = "any".toList ∧ e = { negated := negated } ∨
        t ≠ "any".toList ∧
          parseAddressParts { any := false, negated } (split (stripBrackets t) ',') = .ok e) := by
  unfold parseAddressExpr at h
  simp only [List.isEmpty_iff] at h
  by_cases hempty : trim token = []
  · rw [if_pos hempty] at h
    cases h
  rw [if_neg hempty] at h
  cases hneg : readNegation (trim token) with
  | mk negated t =>
    rw [hneg] at h
    simp only at h
    by_cases hany : t = "any".toList
    · rw [if_pos hany] at h
      cases h
      exact ⟨negated, t, rfl, .inl ⟨hany, rfl⟩⟩
    · rw [if_neg hany] at h
      exact ⟨negated, t, rfl, .inr ⟨hany, h⟩⟩

/-- A token without white space is read as an expression whose text has none. -/
theorem noSpace_of_parseAddressExpr (h : parseAddressExpr token = .ok e) (htoken : NoSpace token) :
    NoSpace e.toString := by
  have hvars : ∀ v ∈ e.vars, NoSpace v := by
    obtain ⟨negated, t, hneg, ⟨-, rfl⟩ | ⟨-, hparts⟩⟩ := exists_of_parseAddressExpr h
    · exact fun v hv => absurd hv List.not_mem_nil
    · refine noSpace_vars_of_parts hparts (fun v hv => absurd hv List.not_mem_nil)
        fun p hp c hc => ?_
      exact noSpace_list htoken hneg c (of_mem_splitOn (mem_split_false.mp hp).1 hc).1
  refine noSpace_listed e.any e.negated fun p hp => ?_
  rcases List.mem_append.mp hp with hp | hp
  · obtain ⟨r, -, rfl⟩ := List.mem_map.mp hp
    exact noSpace_toString r
  · exact hvars p hp

/-- **What a parsed token gives**: `any`, or a list that is empty for blank parts only. -/
theorem parseAddressExpr_ok (h : parseAddressExpr token = .ok e) :
    e.Read ∧ (e = .notAny ↔ NegatesAny token) ∧
      (e = .nothing ∨ e = .notNothing ↔ ListsNothing token) := by
  obtain ⟨negated, t, hneg, ⟨hany, rfl⟩ | ⟨hany, hparts⟩⟩ := exists_of_parseAddressExpr h
  · refine ⟨⟨fun _ => ⟨rfl, rfl⟩, .of_nil rfl rfl⟩, ?_, ?_⟩
    · rw [negatesAny_iff hneg]
      simp [AddressExpr.notAny, hany]
    · rw [listsNothing_iff hneg]
      refine iff_of_false ?_ fun hnothing => hnothing.1 hany
      rintro (heq | heq) <;> cases heq
  · obtain ⟨hread, hanyE, hnegE, hnone⟩ := parseAddressParts_ok
      (fun p hp hc => (of_mem_splitOn (mem_split_false.mp hp).1 hc).2 rfl) (.of_nil rfl rfl) hparts
    refine ⟨⟨fun htrue => ?_, hread⟩, ?_, ?_⟩
    · rw [hanyE] at htrue
      cases htrue
    · rw [negatesAny_iff hneg]
      refine iff_of_false ?_ fun hnot => hany hnot.2
      rintro rfl
      cases hanyE
    · rw [listsNothing_iff hneg]
      obtain ⟨any, negatedE, ranges, vars⟩ := e
      cases hanyE
      cases hnegE
      constructor
      · rintro (heq | heq)
        all_goals
          cases heq
          exact ⟨hany, (hnone.mp ⟨rfl, rfl⟩).2⟩
      · rintro ⟨-, hblank⟩
        obtain ⟨hranges, hvars⟩ := hnone.mpr ⟨⟨rfl, rfl⟩, hblank⟩
        cases hranges
        cases hvars
        cases negated with
        | false => exact .inl rfl
        | true => exact .inr rfl

/-- **Reading back a printed address expression**, but for the two exceptions. -/
theorem AddressExpr.Read.parse_toString (h : e.Read) (hany : e ≠ .notAny)
    (hnothing : e ≠ .nothing) :
    parseAddressExpr e.toString = .ok e := by
  obtain ⟨any, negated, ranges, vars⟩ := e
  cases any with
  | true =>
    obtain ⟨hranges, hvars⟩ := h.ofAny rfl
    cases hranges
    cases hvars
    cases negated with
    | true => exact absurd rfl hany
    | false => rfl
  | false =>
    by_cases hlist : ranges ≠ [] ∨ vars ≠ []
    · exact h.parts.parse_toString rfl hlist
    · obtain ⟨hranges, hvars⟩ := not_or.mp hlist
      cases not_not.mp hranges
      cases not_not.mp hvars
      cases negated with
      | true => rfl
      | false => exact absurd rfl hnothing

/-- The text of `!any` is read as the negated empty list. -/
theorem parseAddressExpr_notAny :
    parseAddressExpr AddressExpr.notAny.toString = .ok .notNothing := rfl

/-- The text of the empty list is not read. -/
theorem parseAddressExpr_nothing :
    parseAddressExpr AddressExpr.nothing.toString = failure "empty address expression" := rfl

/-- Equal texts are texts of equal expressions, but for `!any` and the negated empty list. -/
theorem AddressExpr.Read.toString_inj {e' : AddressExpr} (h : e.Read) (h' : e'.Read)
    (heq : e.toString = e'.toString) :
    e = e' ∨ (e = .notAny ∧ e' = .notNothing) ∨ (e = .notNothing ∧ e' = .notAny) :=
  print_inj (fun _ hread => hread.parse_toString) parseAddressExpr_notAny
    ⟨_, parseAddressExpr_nothing⟩ h h' heq

/-- The text of the expression is read, without a fault, as an expression that matches the same
addresses. -/
def AddressExpr.KeepsMeaning (e : AddressExpr) : Prop :=
  ∃ e', parseAddressExprChecked e.toString = .ok (.ok e') ∧ ∀ address,
    e'.hits address = e.hits address

/-- `!any` and the negated empty list are printed as a lone `!`. -/
theorem AddressExpr.loneBang_toString :
    LoneBang AddressExpr.notAny.toString ∧ LoneBang AddressExpr.notNothing.toString :=
  ⟨rfl, rfl⟩

/-- A lone `!` is read as the negated empty list. -/
theorem parseAddressExpr_loneBang (h : LoneBang token) :
    parseAddressExpr token = .ok .notNothing := by
  unfold parseAddressExpr
  rw [LoneBang] at h
  rw [h]
  rfl

theorem AddressExpr.Read.keepsMeaning_iff (h : e.Read) :
    e.KeepsMeaning ↔ e ≠ .notAny ∧ ¬ (e = .nothing ∨ e = .notNothing) := by
  constructor
  · rintro ⟨e', hread, -⟩
    refine ⟨?_, ?_⟩
    · rintro rfl
      rw [(exprChecked_loneBang AddressExpr.loneBang_toString.1).2] at hread
      cases hread
    · rintro (rfl | rfl)
      · cases hread
      · rw [(exprChecked_loneBang AddressExpr.loneBang_toString.2).2] at hread
        cases hread
  · rintro ⟨hany, hlist⟩
    obtain ⟨hnothing, hnot⟩ := not_or.mp hlist
    have hparse := h.parse_toString hany hnothing
    -- the text is no lone `!`, which would be read as another expression
    have hbang : ¬ LoneBang e.toString := by
      intro hbang
      rw [parseAddressExpr_loneBang hbang] at hparse
      cases hparse
      exact hnot rfl
    refine ⟨e, ?_, fun _ => rfl⟩
    rw [parseAddressExprChecked_eq (loneBang_iff.mp hbang), hparse]

end

/-! ## Ports -/

/-- `!any`. -/
def PortExpr.notAny : PortExpr := ⟨true, true, []⟩

/-- The empty list. -/
def PortExpr.nothing : PortExpr := ⟨false, false, []⟩

/-- The negated empty list. -/
def PortExpr.notNothing : PortExpr := ⟨false, true, []⟩

section
variable {token : Str} {e : PortExpr}

/-- A blank part is no port range. -/
theorem parsePortRange_blank {p : Str} (h : Blank p) :
    parsePortRange p = failure "invalid port" := by
  unfold parsePortRange
  rw [trim_eq_nil_iff.mpr h]
  rfl

/-- The ranges of a list that is parsed: there are none when there are no parts, and
no part is blank. -/
theorem mapM_parsePortRange_ok {parts : List Str} {ranges : List (Nat × Nat)}
    (h : parts.mapM parsePortRange = .ok ranges) :
    (ranges = [] ↔ parts = []) ∧ ∀ p ∈ parts, ¬ Blank p := by
  have hparts := forall₂_of_mapM_eq_ok h
  refine ⟨?_, fun p hp hblank => ?_⟩
  · rw [← List.length_eq_zero_iff, ← hparts.length_eq, List.length_eq_zero_iff]
  · obtain ⟨i, hi⟩ := List.getElem?_of_mem hp
    have hlt := (List.getElem?_eq_some_iff.mp hi).1
    have hrange := hparts.get hlt (hparts.length_eq ▸ hlt)
    rw [List.get_eq_getElem, (List.getElem?_eq_some_iff.mp hi).2, parsePortRange_blank hblank]
      at hrange
    cases hrange

theorem PortExpr.noSpace_toString (e : PortExpr) : NoSpace e.toString := by
  refine noSpace_listed e.any e.negated fun p hp => ?_
  obtain ⟨r, -, rfl⟩ := List.mem_map.mp hp
  exact noSpace_portRangeText r

/-- A token that is read is `any` or a list, behind its negation. -/
theorem exists_of_parsePortExpr (h : parsePortExpr token = .ok e) :
    ∃ negated t, readNegation (trim token) = (negated, t) ∧
      (t = "any".toList ∧ e = { negated := negated } ∨
        t ≠ "any".toList ∧ ∃ ranges, (split (stripBrackets t) ',').mapM parsePortRange =
          .ok ranges ∧
          e = { any := false, negated, ranges }) := by
  unfold parsePortExpr at h
  simp only [List.isEmpty_iff] at h
  by_cases hempty : trim token = []
  · rw [if_pos hempty] at h
    cases h
  rw [if_neg hempty] at h
  cases hneg : readNegation (trim token) with
  | mk negated t =>
    rw [hneg] at h
    simp only at h
    by_cases hany : t = "any".toList
    · rw [if_pos hany] at h
      cases h
      exact ⟨negated, t, rfl, .inl ⟨hany, rfl⟩⟩
    · rw [if_neg hany] at h
      obtain ⟨ranges, hranges, heq⟩ := Lib.bind_eq_ok h
      cases heq
      exact ⟨negated, t, rfl, .inr ⟨hany, ranges, hranges, rfl⟩⟩

/-- **What a parsed token gives**: `any`, or a list that is empty for no parts only. -/
theorem parsePortExpr_ok (h : parsePortExpr token = .ok e) :
    (e = .notAny ↔ NegatesAny token) ∧ (e = .nothing ∨ e = .notNothing ↔ ListsNothing token) := by
  obtain ⟨negated, t, hneg, ⟨hany, rfl⟩ | ⟨hany, ranges, hranges, rfl⟩⟩ := exists_of_parsePortExpr h
  · rw [negatesAny_iff hneg, listsNothing_iff hneg]
    refine ⟨by simp [PortExpr.notAny, hany], iff_of_false ?_ fun hnothing => hnothing.1 hany⟩
    rintro (heq | heq) <;> cases heq
  · obtain ⟨hnone, hfilled⟩ := mapM_parsePortRange_ok hranges
    rw [negatesAny_iff hneg, listsNothing_iff hneg]
    refine ⟨iff_of_false nofun fun hnot => hany hnot.2, ?_⟩
    constructor
    · rintro (heq | heq)
      all_goals
        cases heq
        refine ⟨hany, ?_⟩
        rw [hnone.mp rfl]
        exact fun p hp => absurd hp List.not_mem_nil
    · rintro ⟨-, hblank⟩
      have hparts : split (stripBrackets t) ',' = [] :=
        List.eq_nil_iff_forall_not_mem.mpr fun p hp => hfilled p hp (hblank p hp)
      rw [hnone.mpr hparts]
      cases negated with
      | false => exact .inl rfl
      | true => exact .inr rfl

theorem PortExpr.Valid.printable (h : e.Valid) (hany : e ≠ .notAny) (hnothing : e ≠ .nothing)
    (hnot : e ≠ .notNothing) : e.Printable := by
  obtain ⟨any, negated, ranges⟩ := e
  refine ⟨fun htrue => ?_, fun hfalse hnil => ?_, h.range⟩
  · have hnil := h.ofAny htrue
    simp only at htrue hnil
    subst htrue hnil
    cases negated with
    | true => exact absurd rfl hany
    | false => exact ⟨rfl, rfl⟩
  · simp only at hfalse hnil
    subst hfalse hnil
    cases negated with
    | true => exact absurd rfl hnot
    | false => exact absurd rfl hnothing

/-- **Reading back a printed port expression**, but for the two exceptions. -/
theorem PortExpr.Valid.parse_toString (h : e.Valid) (hany : e ≠ .notAny) (hnothing : e ≠ .nothing) :
    parsePortExpr e.toString = .ok e := by
  by_cases hnot : e = .notNothing
  · subst hnot
    rfl
  · exact parsePortExpr_toString (h.printable hany hnothing hnot)

/-- The text of `!any` is read as the negated empty list. -/
theorem parsePortExpr_notAny : parsePortExpr PortExpr.notAny.toString = .ok .notNothing := rfl

/-- The text of the empty list is not read. -/
theorem parsePortExpr_nothing :
    parsePortExpr PortExpr.nothing.toString = failure "empty port expression" :=
  rfl

/-- Equal texts are texts of equal expressions, but for `!any` and the negated empty list. -/
theorem PortExpr.Valid.toString_inj {e' : PortExpr} (h : e.Valid) (h' : e'.Valid)
    (heq : e.toString = e'.toString) :
    e = e' ∨ (e = .notAny ∧ e' = .notNothing) ∨ (e = .notNothing ∧ e' = .notAny) :=
  print_inj (fun _ hvalid => hvalid.parse_toString) parsePortExpr_notAny
    ⟨_, parsePortExpr_nothing⟩ h h' heq

/-- The text of the expression is read, without a fault, as an expression that matches the same
ports. -/
def PortExpr.KeepsMeaning (e : PortExpr) : Prop :=
  ∃ e', parsePortExprChecked e.toString = .ok (.ok e') ∧ ∀ port < 65536, e'.hits port = e.hits port

/-- `!any` and the negated empty list are printed as a lone `!`. -/
theorem PortExpr.loneBang_toString :
    LoneBang PortExpr.notAny.toString ∧ LoneBang PortExpr.notNothing.toString :=
  ⟨rfl, rfl⟩

/-- A lone `!` is read as the negated empty list. -/
theorem parsePortExpr_loneBang (h : LoneBang token) : parsePortExpr token = .ok .notNothing := by
  unfold parsePortExpr
  rw [LoneBang] at h
  rw [h]
  rfl

theorem PortExpr.Valid.keepsMeaning_iff (h : e.Valid) :
    e.KeepsMeaning ↔ e ≠ .notAny ∧ ¬ (e = .nothing ∨ e = .notNothing) := by
  constructor
  · rintro ⟨e', hread, -⟩
    refine ⟨?_, ?_⟩
    · rintro rfl
      rw [(exprChecked_loneBang PortExpr.loneBang_toString.1).1] at hread
      cases hread
    · rintro (rfl | rfl)
      · cases hread
      · rw [(exprChecked_loneBang PortExpr.loneBang_toString.2).1] at hread
        cases hread
  · rintro ⟨hany, hlist⟩
    obtain ⟨hnothing, hnot⟩ := not_or.mp hlist
    have hparse := h.parse_toString hany hnothing
    have hbang : ¬ LoneBang e.toString := by
      intro hbang
      rw [parsePortExpr_loneBang hbang] at hparse
      cases hparse
      exact hnot rfl
    refine ⟨e, ?_, fun _ _ => rfl⟩
    rw [parsePortExprChecked_eq (loneBang_iff.mp hbang), hparse]

end

/-! ## Equal texts -/

/-- What one of two expressions with equal texts hits, the other one hits: `!any` hits nothing. -/
theorem hits_of_text {Expr α : Type} {hits : Expr → α → Bool} {notAny notNothing e e' : Expr}
    (hnone : ∀ a, hits notAny a = false)
    (htext : e = e' ∨ (e = notAny ∧ e' = notNothing) ∨ (e = notNothing ∧ e' = notAny))
    (hnot : ¬ (e = notAny ∧ e' = notNothing)) {a : α} (hhits : hits e' a = true) :
    hits e a = true := by
  rcases htext with rfl | hmixed | ⟨-, rfl⟩
  · exact hhits
  · exact absurd hmixed hnot
  · rw [hnone a] at hhits
    cases hhits

theorem address_hits_of_text {e e' : AddressExpr} (h : e.Read) (h' : e'.Read)
    (heq : e.toString = e'.toString) (hnot : ¬ (e = .notAny ∧ e' = .notNothing))
    {address : IPv4Address}
    (hhits : e'.hits address = true) : e.hits address = true :=
  hits_of_text (fun _ => rfl) (h.toString_inj h' heq) hnot hhits

theorem port_hits_of_text {e e' : PortExpr} (h : e.Valid) (h' : e'.Valid)
    (heq : e.toString = e'.toString) (hnot : ¬ (e = .notAny ∧ e' = .notNothing)) {port : Nat}
    (hhits : e'.hits port = true) : e.hits port = true :=
  hits_of_text (fun _ => rfl) (h.toString_inj h' heq) hnot hhits

/-- The expression matches no address. -/
def AddressExpr.Void (e : AddressExpr) : Prop := ∀ address, e.hits address = false

/-- The expression matches no port. -/
def PortExpr.Void (e : PortExpr) : Prop := ∀ port < 65536, e.hits port = false

/-! ## Endpoints -/

/-- The four expressions of a rule. Rules of signatures and of policies ask the same
of the addresses and ports of a packet. -/
structure Endpoints where
  source : AddressExpr
  destination : AddressExpr
  sourcePorts : PortExpr
  destinationPorts : PortExpr

namespace Endpoints
variable {e e' : Endpoints} {src dst : IPv4Address} {sport dport : Nat}

/-- The expressions are parsed expressions. -/
structure Read (e : Endpoints) : Prop where
  source : e.source.Read
  destination : e.destination.Read
  sourcePorts : e.sourcePorts.Valid
  destinationPorts : e.destinationPorts.Valid

/-- Each expression matches its address or port. -/
structure Hits (e : Endpoints) (src dst : IPv4Address) (sport dport : Nat) : Prop where
  source : e.source.hits src = true
  destination : e.destination.hits dst = true
  sourcePorts : e.sourcePorts.hits sport = true
  destinationPorts : e.destinationPorts.hits dport = true

/-- One of the expressions has nothing to match. -/
def Void (e : Endpoints) : Prop :=
  e.source.Void ∨ e.destination.Void ∨ e.sourcePorts.Void ∨ e.destinationPorts.Void

/-- Void expressions are those that no addresses and ports satisfy together. -/
theorem void_iff : e.Void ↔ ∀ src dst sport dport, sport < 65536 → dport < 65536 →
    ¬ e.Hits src dst sport dport := by
  constructor
  · rintro (hvoid | hvoid | hvoid | hvoid) src dst sport dport hsport hdport ⟨hs, hd, hsp, hdp⟩
    · exact Bool.eq_false_iff.mp (hvoid src) hs
    · exact Bool.eq_false_iff.mp (hvoid dst) hd
    · exact Bool.eq_false_iff.mp (hvoid sport hsport) hsp
    · exact Bool.eq_false_iff.mp (hvoid dport hdport) hdp
  · intro hnone
    by_contra hvoid
    simp only [Void, AddressExpr.Void, PortExpr.Void, not_or, not_forall, Bool.not_eq_false]
      at hvoid
    obtain ⟨⟨src, hs⟩, ⟨dst, hd⟩, ⟨sport, hsport, hsp⟩, ⟨dport, hdport, hdp⟩⟩ := hvoid
    exact hnone src dst sport dport hsport hdport ⟨hs, hd, hsp, hdp⟩

/-- The texts of the expressions are the same. -/
structure PrintAlike (e e' : Endpoints) : Prop where
  source : e.source.toString = e'.source.toString
  destination : e.destination.toString = e'.destination.toString
  sourcePorts : e.sourcePorts.toString = e'.sourcePorts.toString
  destinationPorts : e.destinationPorts.toString = e'.destinationPorts.toString

theorem PrintAlike.symm (h : e.PrintAlike e') : e'.PrintAlike e :=
  ⟨h.source.symm, h.destination.symm, h.sourcePorts.symm, h.destinationPorts.symm⟩

/-- At some place the first rule has `!any` and the second one the negated empty list, which is
printed like it. -/
def MixesUpNotAny (e e' : Endpoints) : Prop :=
  (e.source = .notAny ∧ e'.source = .notNothing) ∨
  (e.destination = .notAny ∧ e'.destination = .notNothing) ∨
  (e.sourcePorts = .notAny ∧ e'.sourcePorts = .notNothing) ∨
  (e.destinationPorts = .notAny ∧ e'.destinationPorts = .notNothing)

/-- `!any` matches nothing. -/
theorem MixesUpNotAny.void (h : e.MixesUpNotAny e') : e.Void := by
  rcases h with ⟨heq, -⟩ | ⟨heq, -⟩ | ⟨heq, -⟩ | ⟨heq, -⟩
  · exact .inl (heq ▸ fun _ => rfl)
  · exact .inr (.inl (heq ▸ fun _ => rfl))
  · exact .inr (.inr (.inl (heq ▸ fun _ _ => rfl)))
  · exact .inr (.inr (.inr (heq ▸ fun _ _ => rfl)))

/-- Where nothing is mixed up, expressions with equal texts match the same. -/
theorem Hits.of_printAlike (hhits : e'.Hits src dst sport dport) (h : e.Read) (h' : e'.Read)
    (htexts : e.PrintAlike e') (hnot : ¬ e.MixesUpNotAny e') : e.Hits src dst sport dport := by
  simp only [MixesUpNotAny, not_or] at hnot
  obtain ⟨hns, hnd, hnsp, hndp⟩ := hnot
  constructor
  · exact address_hits_of_text h.source h'.source htexts.source hns hhits.source
  · exact address_hits_of_text h.destination h'.destination htexts.destination hnd hhits.destination
  · exact port_hits_of_text h.sourcePorts h'.sourcePorts htexts.sourcePorts hnsp hhits.sourcePorts
  · exact port_hits_of_text h.destinationPorts h'.destinationPorts htexts.destinationPorts hndp
      hhits.destinationPorts

end Endpoints

/-! ## Both -/

/-- **Printing keeps the meaning of an expression exactly when** its token neither negates
`any` nor lists nothing, negated or not. -/
theorem toString_keepsMeaning_iff (token : Str) :
    (∀ e, parseAddressExpr token = .ok e →
      (e.KeepsMeaning ↔ ¬ NegatesAny token ∧ ¬ ListsNothing token)) ∧
    ∀ e, parsePortExpr token = .ok e →
      (e.KeepsMeaning ↔ ¬ NegatesAny token ∧ ¬ ListsNothing token) := by
  constructor
  · intro e h
    obtain ⟨hread, hany, hnothing⟩ := parseAddressExpr_ok h
    rw [hread.keepsMeaning_iff, ne_eq, hany, hnothing]
  · intro e h
    have hvalid := (parsePortExpr_outcome token).of_eq_ok h
    obtain ⟨hany, hnothing⟩ := parsePortExpr_ok h
    rw [hvalid.keepsMeaning_iff, ne_eq, hany, hnothing]

/-- The text of `!any` is a lone `!`, for which the parser reads the first character of an empty
string. -/
theorem not_keepsMeaning_notAny :
    ¬ ((∀ token e, parseAddressExpr token = .ok e → e.KeepsMeaning) ∧
      ∀ token e, parsePortExpr token = .ok e → e.KeepsMeaning) := by
  rintro ⟨haddress, -⟩
  obtain ⟨e', hread, -⟩ := haddress "!any".toList .notAny rfl
  rw [(exprChecked_loneBang AddressExpr.loneBang_toString.1).2] at hread
  cases hread

end PacketGuard.Rules
