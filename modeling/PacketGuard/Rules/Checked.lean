import PacketGuard.Lib.Faults
import PacketGuard.Rules.Expr

/-! # The expression parsers, with their operations checked

`parse_port_expr` and `parse_address_expr` once more, with every `front`, `back`
and `substr`, every unsigned subtraction and every accumulation checked.  They
return what the plain parsers do, unless the token is a `!` with nothing behind
it: then both of them read the first character of an empty string.
-/
namespace PacketGuard.Rules
open PacketGuard.Core PacketGuard.Lib
open PacketGuard.Lib.Checked (ok_bind sub_eq_ok fit_eq_ok front_eq_ok back_eq_ok dropFrom_eq_ok)

/-! ## Numbers -/

/-- The digit loop of `parse_port_number`. -/
def boundedDecimalChecked (width limit value : Nat) : Str → Checked (Option Nat)
  | [] => return some value
  | c :: rest => do
    let tens ← Checked.fit width (value * 10)
    let digit ← Checked.sub c.toNat '0'.toNat
    let value' ← Checked.fit width (tens + digit)
    if limit < value' then return none else boundedDecimalChecked width limit value' rest

def parsePortNumberChecked (value : Str) : Checked (Result Nat) :=
  if !isDecimal value then return failure "invalid port"
  else do
    match ← boundedDecimalChecked 32 65535 0 value with
    | none => return failure "port outside range"
    | some parsed =>
      let port ← Checked.fit 16 parsed
      return .ok port

/-- As long as the number is within the limit, the next one has a digit more at most. -/
theorem boundedDecimalChecked_eq {width limit : Nat} (hw : limit * 10 + 9 < 2 ^ width)
    {digits : Str}
    (hd : digits.all isDigit = true) {value : Nat} (hv : value ≤ limit) :
    boundedDecimalChecked width limit value digits =
      .ok (boundedDecimal width limit value digits) := by
  induction digits generalizing value with
  | nil => rfl
  | cons c digits ih =>
    rw [List.all_cons, Bool.and_eq_true] at hd
    have hc := digitValue_le hd.1
    have hzero : '0'.toNat ≤ c.toNat := by
      have hdigit := hd.1
      simp only [Char.isDigit, Bool.and_eq_true, decide_eq_true_eq] at hdigit
      exact hdigit.1
    have hval : (value * 10 + digitValue c) % 2 ^ width = value * 10 + digitValue c :=
      Nat.mod_eq_of_lt (by omega)
    have hfit : value * 10 + (c.toNat - '0'.toNat) < 2 ^ width := by
      show value * 10 + digitValue c < 2 ^ width
      omega
    rw [boundedDecimalChecked, boundedDecimal, fit_eq_ok (by omega), ok_bind,
      sub_eq_ok hzero, ok_bind, fit_eq_ok hfit, ok_bind, hval]
    show (if limit < value * 10 + digitValue c then _ else _) = _
    by_cases hgt : limit < value * 10 + digitValue c
    · rw [if_pos hgt, if_pos hgt]
      rfl
    · rw [if_neg hgt, if_neg hgt]
      exact ih hd.2 (Nat.le_of_not_lt hgt)

theorem parsePortNumberChecked_eq (value : Str) :
    parsePortNumberChecked value = .ok (parsePortNumber value) := by
  unfold parsePortNumberChecked parsePortNumber
  by_cases hdecimal : isDecimal value = true
  · have hdigits := (isDecimal_iff.mp hdecimal).2
    rw [if_neg (by simpa using hdecimal), if_neg (by simpa using hdecimal),
      boundedDecimalChecked_eq (by decide) hdigits (Nat.zero_le _), ok_bind]
    cases hport : boundedDecimal 32 65535 0 value with
    | none => rfl
    | some port =>
      have hle := boundedDecimal_le (Nat.zero_le _) hport
      simp only
      rw [fit_eq_ok (by omega), ok_bind]
      rfl
  · rw [if_pos (by simpa using hdecimal), if_pos (by simpa using hdecimal)]
    rfl

/-! ## Port ranges -/

/-- A bound of a range, and what stands for a missing one. -/
def portBound (text : Str) (missing : Nat) : Result Nat :=
  if text.isEmpty then .ok missing else parsePortNumber text

def portBoundChecked (text : Str) (missing : Nat) : Checked (Result Nat) :=
  if text.isEmpty then return .ok missing else parsePortNumberChecked text

/-- The checks at the end of `parse_port_range`. -/
def joinBounds (lo hi : Result Nat) : Result (Nat × Nat) :=
  match lo, hi with
  | .error e, _ => .error e
  | _, .error e => .error e
  | .ok lo, .ok hi => if hi < lo then failure "invalid port range" else .ok (lo, hi)

def parsePortRangeChecked (token : Str) : Checked (Result (Nat × Nat)) :=
  let t := trim token
  match find ':' t with
  | none => do
    let port ← parsePortNumberChecked t
    return port.map fun port => (port, port)
  | some colon => do
    let left ← Checked.dropFrom 0 t
    let right ← Checked.dropFrom (colon + 1) t
    let lo ← portBoundChecked (left.take colon) 0
    let hi ← portBoundChecked right 65535
    return joinBounds lo hi

theorem parsePortRange_none {token : Str} (h : find ':' (trim token) = none) :
    parsePortRange token = (parsePortNumber (trim token)).map fun port => (port, port) := by
  simp only [parsePortRange, h]

theorem parsePortRange_some {token : Str} {colon : Nat} (h : find ':' (trim token) = some colon) :
    parsePortRange token =
      joinBounds (portBound ((trim token).take colon) 0)
        (portBound (substr (colon + 1) (trim token)) 65535) := by
  simp only [parsePortRange, h]
  rfl

theorem portBoundChecked_eq (text : Str) (missing : Nat) :
    portBoundChecked text missing = .ok (portBound text missing) := by
  unfold portBoundChecked portBound
  split
  · rfl
  · exact parsePortNumberChecked_eq text

theorem find_lt {c : Char} {value : Str} {i : Nat} (h : find c value = some i) : i < value.length :=
  (List.findIdx?_eq_some_iff_findIdx_eq.mp h).1

theorem parsePortRangeChecked_eq (token : Str) :
    parsePortRangeChecked token = .ok (parsePortRange token) := by
  unfold parsePortRangeChecked
  cases hfind : find ':' (trim token) with
  | none =>
    rw [parsePortRange_none hfind]
    simp only [hfind, parsePortNumberChecked_eq, ok_bind]
    rfl
  | some colon =>
    rw [parsePortRange_some hfind]
    simp only [hfind]
    rw [dropFrom_eq_ok (Nat.zero_le _), ok_bind, dropFrom_eq_ok (find_lt hfind), ok_bind,
      List.drop_zero, portBoundChecked_eq, ok_bind, portBoundChecked_eq, ok_bind]
    rfl

/-! ## Lists -/

/-- The test for a leading `!`, and what follows it. -/
def readNegationChecked (t : Str) : Checked (Bool × Str) := do
  let first ← Checked.front t
  if first = '!' then do
    let rest ← Checked.dropFrom 1 t
    return (true, trim rest)
  else return (false, t)

/-- The test for brackets, and what is in them. -/
def stripBracketsChecked (t : Str) : Checked Str := do
  let first ← Checked.front t
  if first = '[' then do
    let last ← Checked.back t
    if last = ']' then do
      let rest ← Checked.dropFrom 1 t
      let count ← Checked.sub t.length 2
      return rest.take count
    else return t
  else return t

theorem readNegationChecked_eq {t : Str} (h : t ≠ []) :
    readNegationChecked t = .ok (readNegation t) := by
  obtain ⟨c, rest, rfl⟩ := List.exists_cons_of_ne_nil h
  unfold readNegationChecked readNegation
  rw [front_eq_ok rfl, ok_bind]
  simp only [List.head?_cons, Option.some.injEq]
  by_cases hbang : c = '!'
  · rw [if_pos hbang, if_pos hbang, dropFrom_eq_ok (by simp), ok_bind]
    rfl
  · rw [if_neg hbang, if_neg hbang]
    rfl

theorem stripBracketsChecked_eq {t : Str} (h : t ≠ []) :
    stripBracketsChecked t = .ok (stripBrackets t) := by
  obtain ⟨last, hlast⟩ : ∃ last, t.getLast? = some last := ⟨_, List.getLast?_eq_some_getLast h⟩
  obtain ⟨c, rest, rfl⟩ := List.exists_cons_of_ne_nil h
  unfold stripBracketsChecked stripBrackets
  rw [front_eq_ok rfl, ok_bind]
  simp only [hlast, List.head?_cons, Option.some.injEq]
  by_cases hopen : c = '['
  · rw [if_pos hopen, back_eq_ok hlast, ok_bind]
    by_cases hclose : last = ']'
    · have hlength : 2 ≤ (c :: rest).length := by
        cases rest with
        | nil =>
          -- one character is not both brackets
          cases hlast
          rw [hopen] at hclose
          cases hclose
        | cons d rest => simp
      rw [if_pos hclose, if_pos ⟨hopen, hclose⟩, dropFrom_eq_ok (by simp), ok_bind,
        sub_eq_ok hlength, ok_bind]
      rfl
    · rw [if_neg hclose, if_neg fun hboth => hclose hboth.2]
      rfl
  · rw [if_neg hopen, if_neg fun hboth => hopen hboth.1]
    rfl

/-! ## Expressions -/

/-- The loop of `parse_port_expr`. -/
def parsePortRangesChecked : List Str → Checked (Result (List (Nat × Nat)))
  | [] => return .ok []
  | part :: parts => do
    match ← parsePortRangeChecked part with
    | .error e => return .error e
    | .ok range => do
      let ranges ← parsePortRangesChecked parts
      return ranges.map (range :: ·)

def parsePortExprChecked (token : Str) : Checked (Result PortExpr) :=
  let t := trim token
  if t.isEmpty then return failure "empty port expression"
  else do
    let (negated, t) ← readNegationChecked t
    if t = "any".toList then return .ok { negated := negated }
    else do
      let body ← stripBracketsChecked t
      let ranges ← parsePortRangesChecked (split body ',')
      return ranges.map fun ranges => { any := false, negated, ranges }

/-- The loop of `parse_address_expr`. -/
def parseAddressPartsChecked (expr : AddressExpr) : List Str → Checked (Result AddressExpr)
  | [] => return .ok expr
  | part :: parts =>
    let part := trim part
    if part.isEmpty then parseAddressPartsChecked expr parts
    else do
      let first ← Checked.front part
      if first = '$' then parseAddressPartsChecked { expr with vars := expr.vars ++ [part] } parts
      else
        match parseCidr part with
        | none => return .error (Status.failure ("invalid address expression: ".toList ++ part))
        | some range =>
          parseAddressPartsChecked { expr with ranges := expr.ranges ++ [range] } parts

def parseAddressExprChecked (token : Str) : Checked (Result AddressExpr) :=
  let t := trim token
  if t.isEmpty then return failure "empty address expression"
  else do
    let (negated, t) ← readNegationChecked t
    if t = "any".toList then return .ok { negated := negated }
    else do
      let body ← stripBracketsChecked t
      parseAddressPartsChecked { any := false, negated } (split body ',')

theorem parsePortRangesChecked_eq (parts : List Str) :
    parsePortRangesChecked parts = .ok (parts.mapM parsePortRange) := by
  induction parts with
  | nil => rfl
  | cons part parts ih =>
    rw [parsePortRangesChecked, parsePortRangeChecked_eq, ok_bind, List.mapM_cons]
    cases parsePortRange part with
    | error e => rfl
    | ok range =>
      simp only
      rw [ih, ok_bind]
      cases parts.mapM parsePortRange <;> rfl

theorem parseAddressPartsChecked_eq (expr : AddressExpr) (parts : List Str) :
    parseAddressPartsChecked expr parts = .ok (parseAddressParts expr parts) := by
  induction parts generalizing expr with
  | nil => rfl
  | cons part parts ih =>
    rw [parseAddressPartsChecked, parseAddressParts]
    by_cases hempty : (trim part).isEmpty = true
    · rw [if_pos hempty, if_pos hempty]
      exact ih expr
    rw [if_neg hempty, if_neg hempty]
    have hne : trim part ≠ [] := fun hnil => hempty (List.isEmpty_iff.mpr hnil)
    obtain ⟨c, rest, hpart⟩ := List.exists_cons_of_ne_nil hne
    rw [hpart, front_eq_ok rfl, ok_bind]
    simp only [List.head?_cons, Option.some.injEq]
    by_cases hvar : c = '$'
    · rw [if_pos hvar, if_pos hvar]
      exact ih _
    · rw [if_neg hvar, if_neg hvar]
      cases parseCidr (c :: rest) with
      | none => rfl
      | some range => exact ih _

/-- Both parsers, in front of their lists: behind the negation there is something to read. -/
theorem exprChecked_eq {E : Type} {token : Str} {empty : Result E} {any : Bool × Str → Result E}
    {listChecked : Bool × Str → Checked (Result E)} (list : Bool × Str → Result E)
    (hlist : ∀ r, r.2 ≠ [] → listChecked r = .ok (list r))
    (h : trim token = [] ∨ (readNegation (trim token)).2 ≠ []) :
    (if (trim token).isEmpty then return empty
      else do
        let r ← readNegationChecked (trim token)
        if r.2 = "any".toList then return any r else listChecked r) =
      .ok (if (trim token).isEmpty then empty
        else
          let r := readNegation (trim token)
          if r.2 = "any".toList then any r else list r) := by
  by_cases hempty : trim token = []
  · rw [if_pos (List.isEmpty_iff.mpr hempty), if_pos (List.isEmpty_iff.mpr hempty)]
    rfl
  have hnot : ¬ (trim token).isEmpty = true := fun hnil => hempty (List.isEmpty_iff.mp hnil)
  rw [if_neg hnot, if_neg hnot, readNegationChecked_eq hempty, ok_bind]
  simp only
  by_cases hany : (readNegation (trim token)).2 = "any".toList
  · rw [if_pos hany, if_pos hany]
    rfl
  · rw [if_neg hany, if_neg hany]
    exact hlist _ (h.resolve_left hempty)

/-- **Where nothing goes wrong.** -/
theorem parsePortExprChecked_eq {token : Str}
    (h : trim token = [] ∨ (readNegation (trim token)).2 ≠ []) :
    parsePortExprChecked token = .ok (parsePortExpr token) := by
  unfold parsePortExprChecked parsePortExpr
  simp only
  refine exprChecked_eq (fun r => do
    let ranges ← (split (stripBrackets r.2) ',').mapM parsePortRange
    return ({ any := false, negated := r.1, ranges } : PortExpr)) (fun r ht => ?_) h
  rw [stripBracketsChecked_eq ht, ok_bind, parsePortRangesChecked_eq, ok_bind]
  cases (split (stripBrackets r.2) ',').mapM parsePortRange <;> rfl

theorem parseAddressExprChecked_eq {token : Str}
    (h : trim token = [] ∨ (readNegation (trim token)).2 ≠ []) :
    parseAddressExprChecked token = .ok (parseAddressExpr token) := by
  unfold parseAddressExprChecked parseAddressExpr
  simp only
  refine exprChecked_eq (fun r =>
    parseAddressParts { any := false, negated := r.1 } (split (stripBrackets r.2) ','))
      (fun r ht => ?_) h
  rw [stripBracketsChecked_eq ht, ok_bind, parseAddressPartsChecked_eq]

/-- The token is a `!` with nothing behind it. -/
def LoneBang (token : Str) : Prop := trim token = ['!']

instance (token : Str) : Decidable (LoneBang token) := inferInstanceAs (Decidable (_ = _))

/-- Behind the negation there is nothing to read when the token is a lone `!`. -/
theorem loneBang_iff {token : Str} :
    ¬ LoneBang token ↔ trim token = [] ∨ (readNegation (trim token)).2 ≠ [] := by
  unfold LoneBang readNegation
  by_cases hbang : (trim token).head? = some '!'
  · obtain ⟨after, hafter⟩ := List.head?_eq_some_iff.mp hbang
    have hlast := (trimmed_trim token).2
    rw [hafter] at hlast ⊢
    have hnil : trim after = [] ↔ after = [] := by
      rw [trim_eq_nil_iff]
      refine ⟨fun hblank => ?_, fun h => h ▸ nofun⟩
      -- the last character of the token is no white space
      rcases List.eq_nil_or_concat after with h | ⟨front, c, rfl⟩
      · exact h
      · have hspace : isSpace c = true := hblank c (by simp)
        rw [hlast c (by rw [List.concat_eq_append, ← List.cons_append, List.getLast?_concat])]
          at hspace
        cases hspace
    simp [substr, hnil]
  · rw [if_neg hbang]
    refine iff_of_true (fun h => hbang (by rw [h]; rfl)) ?_
    exact (eq_or_ne (trim token) []).imp_right id

/-- Behind a lone `!` both parsers read the first character of an empty string. -/
theorem exprChecked_loneBang {token : Str} (h : LoneBang token) :
    parsePortExprChecked token = .error .outOfRange ∧
      parseAddressExprChecked token = .error .outOfRange := by
  unfold parsePortExprChecked parseAddressExprChecked
  rw [LoneBang] at h
  rw [h]
  exact ⟨rfl, rfl⟩

end PacketGuard.Rules
