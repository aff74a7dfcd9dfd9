import PacketGuard.Rules.Checked
import PacketGuard.Rules.Meaning

/-! # The grammar of port expressions

A port expression is `any` or a list of ports and ranges, in brackets or not,
perhaps behind a `!`.  `parse_port_expr` accepts exactly these, with the ports
that the text names, however long its numbers are.
-/
namespace PacketGuard.Rules
open PacketGuard.Core PacketGuard.Lib

/-! ## Grammar -/

/-- The digits denote the number. -/
def Denotes (digits : Str) (n : Nat) : Prop :=
  isDecimal digits = true ∧ Nat.ofDigitChars 10 digits 0 = n

/-- A port or a range, and its bounds: missing ones are 0 and 65535. -/
inductive PortPart : Str → Nat → Nat → Prop
  | port {digits : Str} {n : Nat} : Denotes digits n → n ≤ 65535 → PortPart digits n n
  | range {low high : Str} {n m : Nat} : Denotes low n → Denotes high m → n ≤ m → m ≤ 65535 →
      PortPart (low ++ ':' :: high) n m
  | above {low : Str} {n : Nat} : Denotes low n → n ≤ 65535 → PortPart (low ++ [':']) n 65535
  | below {high : Str} {m : Nat} : Denotes high m → m ≤ 65535 → PortPart (':' :: high) 0 m
  | all : PortPart [':'] 0 65535

/-- What is behind the `!` of a token, if it has one. -/
inductive BehindNegation (token : Str) : Bool → Str → Prop
  | plain {rest : Str} : trim token = rest → rest.head? ≠ some '!' → BehindNegation token false rest
  | negated {after : Str} : trim token = '!' :: after → BehindNegation token true (trim after)

/-- What is in the brackets of a list, if it has them. -/
inductive InBrackets : Str → Str → Prop
  | bare {rest : Str} : ¬ (rest.head? = some '[' ∧ rest.getLast? = some ']') → InBrackets rest rest
  | bracketed {body : Str} : InBrackets ('[' :: (body ++ [']'])) body

/-- The non-empty parts of a list. -/
def Listed (body part : Str) : Prop := part ∈ body.splitOn ',' ∧ part ≠ []

/-- The grammar of what is behind the negation. -/
def PortText (rest body : Str) : Prop :=
  rest = "any".toList ∨ ∀ part, Listed body part → ∃ lo hi, PortPart (trim part) lo hi

/-- The ports that the text names. -/
def Names (rest body : Str) (port : Nat) : Prop :=
  rest = "any".toList ∨
    ∃ part lo hi, Listed body part ∧ PortPart (trim part) lo hi ∧ lo ≤ port ∧ port ≤ hi

theorem readNegation_of_behind {token rest : Str} {negated : Bool}
    (h : BehindNegation token negated rest) :
    readNegation (trim token) = (negated, rest) := by
  cases h with
  | plain htrim hhead =>
    rw [htrim]
    exact if_neg hhead
  | negated htrim =>
    rw [htrim]
    exact if_pos rfl

theorem stripBrackets_of_in {rest body : Str} (h : InBrackets rest body) :
    stripBrackets rest = body := by
  cases h with
  | bare hbare => exact if_neg hbare
  | bracketed =>
    have hlast : ('[' :: (body ++ [']'])).getLast? = some ']' := by
      rw [← List.cons_append, List.getLast?_concat]
    rw [stripBrackets, if_pos ⟨rfl, hlast⟩]
    simp [substr]

theorem BehindNegation.token_ne_nil {token rest : Str} {negated : Bool}
    (h : BehindNegation token negated rest) (hrest : rest ≠ []) : trim token ≠ [] := by
  cases h with
  | plain htrim _ => rwa [htrim]
  | negated htrim =>
    rw [htrim]
    exact nofun

/-! ## Ports and ranges -/

theorem Denotes.colon_not_mem {digits : Str} {n : Nat} (h : Denotes digits n) : ':' ∉ digits :=
  not_mem_decimal h.1 rfl

theorem Denotes.ne_nil {digits : Str} {n : Nat} (h : Denotes digits n) : digits ≠ [] := by
  rintro rfl
  cases h.1

theorem parsePortNumber_iff {text : Str} {n : Nat} :
    parsePortNumber text = .ok n ↔ Denotes text n ∧ n ≤ 65535 := by
  unfold parsePortNumber Denotes
  by_cases hdecimal : isDecimal text = true
  · have hdigits := (isDecimal_iff.mp hdecimal).2
    rw [if_neg (by simpa using hdecimal), boundedDecimal_eq (by decide) hdigits (Nat.zero_le _)]
    by_cases hle : Nat.ofDigitChars 10 text 0 ≤ 65535
    · rw [if_pos hle]
      constructor
      · intro h
        cases h
        exact ⟨⟨hdecimal, rfl⟩, hle⟩
      · rintro ⟨⟨-, rfl⟩, -⟩
        rfl
    · rw [if_neg hle]
      refine iff_of_false (by intro h; cases h) ?_
      rintro ⟨⟨-, rfl⟩, hn⟩
      exact hle hn
  · rw [if_pos (by simpa using hdecimal)]
    exact iff_of_false (by intro h; cases h) fun h => hdecimal h.1.1

theorem portBound_iff {text : Str} {missing n : Nat} :
    portBound text missing = .ok n ↔ (text = [] ∧ n = missing) ∨ (Denotes text n ∧ n ≤ 65535) := by
  unfold portBound
  by_cases hempty : text = []
  · rw [if_pos (List.isEmpty_iff.mpr hempty)]
    constructor
    · intro h
      cases h
      exact .inl ⟨hempty, rfl⟩
    · rintro (⟨-, rfl⟩ | ⟨hdenotes, -⟩)
      · rfl
      · exact absurd hempty hdenotes.ne_nil
  · rw [if_neg (by simpa using hempty), parsePortNumber_iff]
    exact ⟨.inr, fun h => h.resolve_left fun hnil => hempty hnil.1⟩

theorem joinBounds_iff {lo hi : Result Nat} {n m : Nat} :
    joinBounds lo hi = .ok (n, m) ↔ lo = .ok n ∧ hi = .ok m ∧ n ≤ m := by
  cases lo with
  | error e => exact iff_of_false nofun nofun
  | ok lo =>
    cases hi with
    | error e => exact iff_of_false nofun nofun
    | ok hi =>
      unfold joinBounds
      simp only [Except.ok.injEq]
      by_cases hlt : hi < lo
      · rw [if_pos hlt]
        refine iff_of_false nofun ?_
        rintro ⟨rfl, rfl, hle⟩
        exact absurd hlt (Nat.not_lt.mpr hle)
      · rw [if_neg hlt, Except.ok.injEq, Prod.mk.injEq]
        constructor
        · rintro ⟨rfl, rfl⟩
          exact ⟨rfl, rfl, Nat.le_of_not_lt hlt⟩
        · exact fun h => ⟨h.1, h.2.1⟩

/-- A text with a colon, by what is on its sides. -/
theorem portPart_colon_iff {left right : Str} (hleft : ':' ∉ left) {n m : Nat} :
    PortPart (left ++ ':' :: right) n m ↔
      ((left = [] ∧ n = 0) ∨ (Denotes left n ∧ n ≤ 65535)) ∧
        ((right = [] ∧ m = 65535) ∨ (Denotes right m ∧ m ≤ 65535)) ∧ n ≤ m := by
  constructor
  · intro h
    generalize htext : left ++ ':' :: right = text at h
    have hcut : ∀ {low high : Str}, ':' ∉ low → left ++ ':' :: right = low ++ ':' :: high →
        left = low ∧ right = high := fun hlow heq => (append_cons_inj hleft hlow).mp heq
    cases h with
    | port hdenotes _ => exact absurd (htext ▸ by simp) hdenotes.colon_not_mem
    | range hlow hhigh hle hmax =>
      obtain ⟨rfl, rfl⟩ := hcut hlow.colon_not_mem htext
      exact ⟨.inr ⟨hlow, hle.trans hmax⟩, .inr ⟨hhigh, hmax⟩, hle⟩
    | above hlow hmax =>
      obtain ⟨rfl, rfl⟩ := hcut hlow.colon_not_mem htext
      exact ⟨.inr ⟨hlow, hmax⟩, .inl ⟨rfl, rfl⟩, hmax⟩
    | below hhigh hmax =>
      obtain ⟨rfl, rfl⟩ := hcut List.not_mem_nil htext
      exact ⟨.inl ⟨rfl, rfl⟩, .inr ⟨hhigh, hmax⟩, Nat.zero_le _⟩
    | all =>
      obtain ⟨rfl, rfl⟩ := hcut List.not_mem_nil htext
      exact ⟨.inl ⟨rfl, rfl⟩, .inl ⟨rfl, rfl⟩, by decide⟩
  · rintro ⟨⟨rfl, rfl⟩ | ⟨hlow, hmin⟩, ⟨rfl, rfl⟩ | ⟨hhigh, hmax⟩, hle⟩
    · exact .all
    · exact .below hhigh hmax
    · exact .above hlow hmin
    · exact .range hlow hhigh hle hmax

/-- **One part of a list.** -/
theorem parsePortRange_iff {part : Str} {lo hi : Nat} :
    parsePortRange part = .ok (lo, hi) ↔ PortPart (trim part) lo hi := by
  by_cases hcolon : ':' ∈ trim part
  · obtain ⟨left, right, htext, hleft⟩ := List.eq_append_cons_of_mem hcolon
    have hfind : find ':' (trim part) = some left.length := htext ▸ find_append_cons hleft right
    have hright : substr (left.length + 1) (trim part) = right := by
      rw [htext, substr, ← List.drop_drop, List.drop_left, List.drop_one, List.tail_cons]
    rw [parsePortRange_some hfind, joinBounds_iff, hright, htext, List.take_left, portBound_iff,
      portBound_iff, portPart_colon_iff hleft]
  · rw [parsePortRange_none (find_eq_none hcolon)]
    constructor
    · intro h
      cases hport : parsePortNumber (trim part) with
      | error e =>
        rw [hport] at h
        cases h
      | ok n =>
        rw [hport] at h
        cases h
        obtain ⟨hdenotes, hmax⟩ := parsePortNumber_iff.mp hport
        exact .port hdenotes hmax
    · intro h
      generalize htext : trim part = text at h hcolon
      cases h with
      | port hdenotes hmax =>
        rw [parsePortNumber_iff.mpr ⟨hdenotes, hmax⟩]
        rfl
      | range => simp at hcolon
      | above => simp at hcolon
      | below => simp at hcolon
      | all => simp at hcolon

/-! ## Expressions -/

/-- Every token has a text behind its negation, -/
theorem exists_behindNegation (token : Str) :
    ∃ negated rest, BehindNegation token negated rest := by
  by_cases hbang : (trim token).head? = some '!'
  · obtain ⟨after, hafter⟩ := List.head?_eq_some_iff.mp hbang
    exact ⟨true, trim after, .negated hafter⟩
  · exact ⟨false, trim token, .plain rfl hbang⟩

/-- and that text a list in its brackets. -/
theorem exists_inBrackets (rest : Str) : ∃ body, InBrackets rest body := by
  by_cases hboth : rest.head? = some '[' ∧ rest.getLast? = some ']'
  · obtain ⟨hopen, hclose⟩ := hboth
    cases rest with
    | nil => cases hopen
    | cons c rest =>
      cases hopen
      rcases List.eq_nil_or_concat rest with rfl | ⟨body, d, rfl⟩
      · cases hclose
      · rw [List.concat_eq_append, ← List.cons_append, List.getLast?_concat] at hclose
        cases hclose
        rw [List.concat_eq_append]
        exact ⟨body, .bracketed⟩
  · exact ⟨rest, .bare hboth⟩

/-- A list is read when each of its parts is, and what is read are their ranges. -/
theorem mapM_parsePortRange_iff {body : Str} :
    ((∃ ranges, (split body ',').mapM parsePortRange = .ok ranges) ↔
      ∀ part, Listed body part → ∃ lo hi, PortPart (trim part) lo hi) ∧
    ∀ ranges, (split body ',').mapM parsePortRange = .ok ranges →
      ∀ r, r ∈ ranges ↔ ∃ part, Listed body part ∧ PortPart (trim part) r.1 r.2 := by
  constructor
  · rw [exists_mapM_eq_ok_iff]
    simp only [mem_split_false, Prod.exists, parsePortRange_iff, Listed]
  · rintro ranges h ⟨lo, hi⟩
    rw [mem_of_mapM_eq_ok h]
    simp only [mem_split_false, parsePortRange_iff, Listed]

section
variable {token rest body : Str} {negated : Bool}

theorem parsePortExpr_any (hneg : BehindNegation token negated "any".toList) :
    parsePortExpr token = .ok { negated } := by
  unfold parsePortExpr
  simp only [List.isEmpty_iff]
  rw [if_neg (hneg.token_ne_nil (by decide)), readNegation_of_behind hneg]
  simp only
  rw [if_pos trivial]

theorem parsePortExpr_list (hneg : BehindNegation token negated rest) (hbody : InBrackets rest body)
    (hrest : rest ≠ []) (hany : rest ≠ "any".toList) :
    parsePortExpr token =
      ((split body ',').mapM parsePortRange).map fun ranges =>
      { any := false, negated, ranges } := by
  unfold parsePortExpr
  simp only [List.isEmpty_iff]
  rw [if_neg (hneg.token_ne_nil hrest), readNegation_of_behind hneg]
  simp only
  rw [if_neg hany, stripBrackets_of_in hbody]
  cases (split body ',').mapM parsePortRange <;> rfl

/-- A list matches the ports of its ranges, or the others when it is negated. -/
theorem hits_list_iff {ranges : List (Nat × Nat)} {port : Nat} :
    PortExpr.hits { any := false, negated, ranges } port = true ↔
      ((∃ r ∈ ranges, r.1 ≤ port ∧ port ≤ r.2) ↔ negated = false) := by
  have hhit : (ranges.any fun r => r.1 ≤ port && port ≤ r.2) = true ↔
      ∃ r ∈ ranges, r.1 ≤ port ∧ port ≤ r.2 := by
    simp
  unfold PortExpr.hits
  simp only [Bool.false_eq_true, if_false]
  rw [← hhit]
  cases negated <;> cases ranges.any fun r => r.1 ≤ port && port ≤ r.2 <;> simp

theorem parsePortExpr_means (hneg : BehindNegation token negated rest)
    (hbody : InBrackets rest body)
    (hrest : rest ≠ []) :
    parsePortExprChecked token = .ok (parsePortExpr token) ∧
      ((∃ e, parsePortExpr token = .ok e) ↔ PortText rest body) ∧
      ∀ e, parsePortExpr token = .ok e → ∀ port < 65536,
        (e.hits port = true ↔ (Names rest body port ↔ negated = false)) := by
  refine ⟨parsePortExprChecked_eq (.inr (by rwa [readNegation_of_behind hneg])), ?_⟩
  by_cases hany : rest = "any".toList
  · subst hany
    rw [parsePortExpr_any hneg]
    refine ⟨iff_of_true ⟨_, rfl⟩ (.inl rfl), fun e he port _ => ?_⟩
    cases he
    have hnames : Names "any".toList body port := .inl rfl
    rw [iff_true_left hnames]
    cases negated <;> simp [PortExpr.hits]
  · rw [parsePortExpr_list hneg hbody hrest hany]
    obtain ⟨hread, hranges⟩ := @mapM_parsePortRange_iff body
    constructor
    · rw [PortText, or_iff_right hany, ← hread]
      cases (split body ',').mapM parsePortRange with
      | error e => exact iff_of_false nofun nofun
      | ok ranges => exact iff_of_true ⟨_, rfl⟩ ⟨_, rfl⟩
    · intro e he port _
      cases hparts : (split body ',').mapM parsePortRange with
      | error status =>
        rw [hparts] at he
        cases he
      | ok ranges =>
        rw [hparts] at he
        cases he
        have hnames : Names rest body port ↔ ∃ r ∈ ranges, r.1 ≤ port ∧ port ≤ r.2 := by
          rw [Names, or_iff_right hany]
          simp only [hranges ranges hparts]
          constructor
          · rintro ⟨part, lo, hi, hpart, hform, hle⟩
            exact ⟨(lo, hi), ⟨part, hpart, hform⟩, hle⟩
          · rintro ⟨r, ⟨part, hpart, hform⟩, hle⟩
            exact ⟨part, r.1, r.2, hpart, hform, hle⟩
        rw [hits_list_iff, hnames]

end

/-- **Port expressions**: every token can be taken apart; what is not empty behind
the negation is parsed without an operation going wrong, exactly the grammar is
accepted, and the expression matches the ports that the text names, or the others
when it is negated. -/
theorem parsePortExpr_grammar (token : Str) :
    (∃ negated rest body, BehindNegation token negated rest ∧ InBrackets rest body) ∧
      ∀ negated rest body, BehindNegation token negated rest → InBrackets rest body → rest ≠ [] →
        parsePortExprChecked token = .ok (parsePortExpr token) ∧
          ((∃ e, parsePortExpr token = .ok e) ↔ PortText rest body) ∧
          ∀ e, parsePortExpr token = .ok e → ∀ port < 65536,
            (e.hits port = true ↔ (Names rest body port ↔ negated = false)) := by
  constructor
  · obtain ⟨negated, rest, hneg⟩ := exists_behindNegation token
    obtain ⟨body, hbody⟩ := exists_inBrackets rest
    exact ⟨negated, rest, body, hneg, hbody⟩
  · intro negated rest body hneg hbody hrest
    exact parsePortExpr_means hneg hbody hrest

/-- `![:80,443]` is every port above 80 but for 443. -/
theorem parsePortExpr_grammar_bracketed :
    PortText "[:80,443]".toList ":80,443".toList ∧
      ∀ e, parsePortExpr "![:80,443]".toList = .ok e →
        (e.hits 444 = true ↔ (Names "[:80,443]".toList ":80,443".toList 444 ↔ true = false)) := by
  have htoken : trim "![:80,443]".toList = '!' :: "[:80,443]".toList := rfl
  have hneg : BehindNegation "![:80,443]".toList true "[:80,443]".toList := .negated htoken
  have htext : "[:80,443]".toList = '[' :: (":80,443".toList ++ [']']) := rfl
  have hbody : InBrackets "[:80,443]".toList ":80,443".toList := htext ▸ .bracketed
  obtain ⟨-, haccepts, hmeans⟩ := (parsePortExpr_grammar _).2 _ _ _ hneg hbody (by decide)
  exact ⟨haccepts.mp ⟨_, rfl⟩, fun e he => hmeans e he 444 (by decide)⟩

end PacketGuard.Rules
