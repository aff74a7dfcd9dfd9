import PacketGuard.Core.Comments
import PacketGuard.Core.Ip

/-! Port and address expressions of rule headers (`rules/rules.cpp`), with the
round trip through their text forms. -/
namespace PacketGuard.Rules
open PacketGuard.Core

structure PortExpr where
  any : Bool := true
  negated : Bool := false
  ranges : List (Nat × Nat) := []
  deriving DecidableEq, Repr

/-- `vars` is the field `variables`. -/
structure AddressExpr where
  any : Bool := true
  negated : Bool := false
  ranges : List CIDRRange := []
  vars : List Str := []
  deriving DecidableEq, Repr

/-- `PortExpr::matches`. -/
def PortExpr.hits (e : PortExpr) (port : Nat) : Bool :=
  let hit := if e.any then true else e.ranges.any fun r => r.1 ≤ port && port ≤ r.2
  if e.negated then !hit else hit

/-- `AddressExpr::matches`. -/
def AddressExpr.hits (e : AddressExpr) (address : IPv4Address) : Bool :=
  let hit := if e.any then true else e.ranges.any (·.contains address)
  if e.negated then !hit else hit

/-! ## Printing -/

def portRangeText (r : Nat × Nat) : Str :=
  natToString r.1 ++ if r.2 ≠ r.1 then ':' :: natToString r.2 else []

def PortExpr.toString (e : PortExpr) : Str :=
  if e.any && !e.negated then "any".toList
  else (if e.negated then ['!'] else []) ++ [','].intercalate (e.ranges.map portRangeText)

def AddressExpr.toString (e : AddressExpr) : Str :=
  if e.any && !e.negated then "any".toList
  else
    (if e.negated then ['!'] else []) ++
      [','].intercalate (e.ranges.map CIDRRange.toString ++ e.vars)

/-! ## Reading -/

/-- The local function `parse_port_number`. -/
def parsePortNumber (value : Str) : Result Nat :=
  if !isDecimal value then failure "invalid port"
  else
    match boundedDecimal 32 65535 0 value with
    | none => failure "port outside range"
    | some port => .ok port

def parsePortRange (token : Str) : Result (Nat × Nat) :=
  let t := trim token
  match find ':' t with
  | none => (parsePortNumber t).map fun port => (port, port)
  | some colon =>
    let left := t.take colon
    let right := substr (colon + 1) t
    let lo := if left.isEmpty then .ok 0 else parsePortNumber left
    let hi := if right.isEmpty then .ok 65535 else parsePortNumber right
    match lo, hi with
    | .error e, _ => .error e
    | _, .error e => .error e
    | .ok lo, .ok hi => if hi < lo then failure "invalid port range" else .ok (lo, hi)

/-- A leading `!`, and what follows it. -/
def readNegation (t : Str) : Bool × Str :=
  if t.head? = some '!' then (true, trim (substr 1 t)) else (false, t)

def stripBrackets (t : Str) : Str :=
  if t.head? = some '[' ∧ t.getLast? = some ']' then (substr 1 t).take (t.length - 2) else t

def parsePortExpr (token : Str) : Result PortExpr :=
  let t := trim token
  if t.isEmpty then failure "empty port expression"
  else
    let (negated, t) := readNegation t
    if t = "any".toList then .ok { negated := negated }
    else do
      let ranges ← (split (stripBrackets t) ',').mapM parsePortRange
      return { any := false, negated, ranges }

/-- The loop of `parse_address_expr` over the parts of a list. -/
def parseAddressParts (expr : AddressExpr) : List Str → Result AddressExpr
  | [] => .ok expr
  | part :: parts =>
    let part := trim part
    if part.isEmpty then parseAddressParts expr parts
    else if part.head? = some '$' then
      parseAddressParts { expr with vars := expr.vars ++ [part] } parts
    else
      match parseCidr part with
      | none => .error (Status.failure ("invalid address expression: ".toList ++ part))
      | some range => parseAddressParts { expr with ranges := expr.ranges ++ [range] } parts

def parseAddressExpr (token : Str) : Result AddressExpr :=
  let t := trim token
  if t.isEmpty then failure "empty address expression"
  else
    let (negated, t) := readNegation t
    if t = "any".toList then .ok { negated := negated }
    else parseAddressParts { any := false, negated } (split (stripBrackets t) ',')

/-! ## Texts of lists -/

/-- The pieces of a printed list: without commas and without white space at the ends,
each starting with a digit or a `$`. -/
structure ListPieces (pieces : List Str) : Prop where
  nonempty : pieces ≠ []
  trimmed : ∀ p ∈ pieces, Trimmed p
  noComma : ∀ p ∈ pieces, ',' ∉ p
  head : ∀ p ∈ pieces, ∃ c, p.head? = some c ∧ (isDigit c = true ∨ c = '$')

namespace ListPieces
variable {pieces : List Str}

theorem piece_ne_nil (h : ListPieces pieces) {p : Str} (hp : p ∈ pieces) : p ≠ [] := by
  obtain ⟨c, hc, -⟩ := h.head p hp
  rintro rfl
  cases hc

theorem head_joined (h : ListPieces pieces) :
    ∃ c, ([','].intercalate pieces).head? = some c ∧ (isDigit c = true ∨ c = '$') := by
  obtain ⟨p, pieces', rfl⟩ := List.exists_cons_of_ne_nil h.nonempty
  obtain ⟨c, hc, hkind⟩ := h.head p (by simp)
  refine ⟨c, ?_, hkind⟩
  rw [intercalate_cons_eq, List.head?_append_of_ne_nil _ (h.piece_ne_nil (by simp)), hc]

theorem head_ne (h : ListPieces pieces) {c : Char} (hd : isDigit c = false) (hc : c ≠ '$') :
    ([','].intercalate pieces).head? ≠ some c := by
  obtain ⟨d, hhead, hkind⟩ := h.head_joined
  rw [hhead]
  rintro ⟨⟩
  rcases hkind with hkind | hkind
  · rw [hd] at hkind
    cases hkind
  · exact hc hkind

theorem joined_ne_nil (h : ListPieces pieces) : [','].intercalate pieces ≠ [] := by
  obtain ⟨c, hhead, -⟩ := h.head_joined
  intro hnil
  rw [hnil] at hhead
  cases hhead

/-- The ends of the text are the ends of pieces. -/
theorem trimmed_joined (h : ListPieces pieces) : Trimmed ([','].intercalate pieces) := by
  constructor
  · intro c hc
    obtain ⟨d, hhead, hkind⟩ := h.head_joined
    rw [hhead] at hc
    cases hc
    rcases hkind with hkind | rfl
    · exact isSpace_of_isDigit hkind
    · rfl
  · intro c hc
    obtain ⟨p, hlast⟩ : ∃ p, pieces.getLast? = some p :=
      ⟨_, List.getLast?_eq_some_getLast h.nonempty⟩
    have hp := List.mem_of_getLast? hlast
    rw [getLast?_intercalate hlast (h.piece_ne_nil hp)] at hc
    exact (h.trimmed p hp).2 c hc

theorem split_joined (h : ListPieces pieces) :
    split (stripBrackets ([','].intercalate pieces)) ',' = pieces := by
  have hbracket : stripBrackets ([','].intercalate pieces) = [','].intercalate pieces :=
    if_neg fun hb => h.head_ne (by decide) (by decide) hb.1
  rw [hbracket]
  exact split_intercalate h.nonempty h.noComma fun p hp => h.piece_ne_nil hp

theorem joined_ne_any (h : ListPieces pieces) : [','].intercalate pieces ≠ "any".toList := by
  intro heq
  exact h.head_ne (show isDigit 'a' = false by decide) (by decide) (heq ▸ rfl)

/-- Reading the negation of a printed list. -/
theorem readNegation_joined (h : ListPieces pieces) (negated : Bool) :
    trim ((if negated then ['!'] else []) ++ [','].intercalate pieces) =
        (if negated then ['!'] else []) ++ [','].intercalate pieces ∧
      readNegation ((if negated then ['!'] else []) ++ [','].intercalate pieces) =
        (negated, [','].intercalate pieces) := by
  have htrim : trim ([','].intercalate pieces) = [','].intercalate pieces :=
    trim_eq_self h.trimmed_joined
  cases negated with
  | false =>
    simp only [Bool.false_eq_true, if_false, List.nil_append]
    exact ⟨htrim, if_neg (h.head_ne (by decide) (by decide))⟩
  | true =>
    have htrimmed : Trimmed (['!'] ++ [','].intercalate pieces) := by
      refine ⟨fun c hc => ?_, fun c hc => ?_⟩
      · cases hc
        rfl
      · rw [List.getLast?_append_of_ne_nil _ h.joined_ne_nil] at hc
        exact h.trimmed_joined.2 c hc
    refine ⟨trim_eq_self htrimmed, ?_⟩
    have hrest : substr 1 (['!'] ++ [','].intercalate pieces) = [','].intercalate pieces := rfl
    have hhead : (['!'] ++ [','].intercalate pieces).head? = some '!' := rfl
    simp only [if_true, readNegation]
    rw [if_pos hhead, hrest, htrim]

end ListPieces

/-- The text of a list of ports or addresses: pieces without white space and
commas, each starting with a digit or a `$`. -/
structure ListText (pieces : List Str) : Prop where
  nonempty : pieces ≠ []
  noSpace : ∀ p ∈ pieces, NoSpace p
  noComma : ∀ p ∈ pieces, ',' ∉ p
  head : ∀ p ∈ pieces, ∃ c, p.head? = some c ∧ (isDigit c = true ∨ c = '$')

namespace ListText
variable {pieces : List Str}

theorem listPieces (h : ListText pieces) : ListPieces pieces :=
  ⟨h.nonempty, fun p hp => (h.noSpace p hp).trimmed, h.noComma, h.head⟩

theorem mem_joined {pieces : List Str} {c : Char} (hc : c ∈ [','].intercalate pieces) :
    c = ',' ∨ ∃ p ∈ pieces, c ∈ p := by
  cases pieces with
  | nil => simp at hc
  | cons p pieces =>
    rw [intercalate_cons_eq, List.mem_append, List.mem_flatMap] at hc
    rcases hc with hc | ⟨q, hq, hc⟩
    · exact Or.inr ⟨p, by simp, hc⟩
    · rcases List.mem_cons.mp hc with rfl | hc
      · exact Or.inl rfl
      · exact Or.inr ⟨q, by simp [hq], hc⟩

theorem noSpace_joined (h : ListText pieces) : NoSpace ([','].intercalate pieces) := by
  intro c hc
  rcases mem_joined hc with rfl | ⟨p, hp, hc⟩
  · rfl
  · exact h.noSpace p hp c hc

end ListText

/-! ## Ports -/

/-- A port expression as the parser builds it, except for `!any` and an empty list. -/
structure PortExpr.Printable (e : PortExpr) : Prop where
  ofAny : e.any = true → e.negated = false ∧ e.ranges = []
  ofList : e.any = false → e.ranges ≠ []
  range : ∀ r ∈ e.ranges, r.1 ≤ r.2 ∧ r.2 ≤ 65535

theorem parsePortNumber_natToString {n : Nat} (h : n ≤ 65535) :
    parsePortNumber (natToString n) = .ok n := by
  rw [parsePortNumber, if_neg (by simp [isDecimal_natToString]),
    boundedDecimal_natToString (by norm_num) h]

theorem mem_portRangeText {r : Nat × Nat} {c : Char} (h : c ∈ portRangeText r) :
    isDigit c = true ∨ c = ':' := by
  have hd : ∀ n, c ∈ natToString n → isDigit c = true := fun n hn =>
    Nat.isDigit_of_mem_toDigits (by decide) (by decide) hn
  unfold portRangeText at h
  rcases List.mem_append.mp h with h | h
  · exact Or.inl (hd _ h)
  · split at h
    · rcases List.mem_cons.mp h with rfl | h
      · exact Or.inr rfl
      · exact Or.inl (hd _ h)
    · cases h

theorem noSpace_portRangeText (r : Nat × Nat) : NoSpace (portRangeText r) := by
  intro c hc
  rcases mem_portRangeText hc with hc | rfl
  · exact isSpace_of_isDigit hc
  · rfl

/-- Reading back a printed port range. -/
theorem parsePortRange_portRangeText {r : Nat × Nat} (h : r.1 ≤ r.2 ∧ r.2 ≤ 65535) :
    parsePortRange (portRangeText r) = .ok r := by
  obtain ⟨lo, hi⟩ := r
  obtain ⟨hle, hmax⟩ := h
  have hcolon : ':' ∉ natToString lo := not_mem_natToString rfl lo
  unfold parsePortRange
  rw [trim_eq_self (noSpace_portRangeText _).trimmed]
  unfold portRangeText
  by_cases heq : hi = lo
  · subst heq
    rw [if_neg (by simp), List.append_nil]
    simp only [find_eq_none hcolon, parsePortNumber_natToString hmax]
    rfl
  · rw [if_pos heq]
    have hleft : (natToString lo ++ ':' :: natToString hi).take (natToString lo).length =
        natToString lo := by simp
    have hright : substr ((natToString lo).length + 1) (natToString lo ++ ':' :: natToString hi) =
        natToString hi := by
      simp [substr, ← List.drop_drop]
    have hne : ∀ n, (natToString n).isEmpty = false := fun n =>
      List.isEmpty_eq_false_iff.mpr (natToString_ne_nil n)
    simp only [find_append_cons hcolon, hleft, hright, hne, Bool.false_eq_true, if_false,
      parsePortNumber_natToString (show lo ≤ 65535 by omega), parsePortNumber_natToString hmax]
    exact if_neg (by omega)

theorem listText_ports {e : PortExpr} (h : e.Printable) (hlist : e.any = false) :
    ListText (e.ranges.map portRangeText) := by
  refine ⟨by simpa using h.ofList hlist, ?_, ?_, ?_⟩
  · intro p hp
    obtain ⟨r, -, rfl⟩ := List.mem_map.mp hp
    exact noSpace_portRangeText r
  · intro p hp hcomma
    obtain ⟨r, -, rfl⟩ := List.mem_map.mp hp
    rcases mem_portRangeText hcomma with hc | hc <;> cases hc
  · intro p hp
    obtain ⟨r, -, rfl⟩ := List.mem_map.mp hp
    obtain ⟨c, hc, hdigit⟩ := exists_head_natToString r.1
    refine ⟨c, ?_, Or.inl hdigit⟩
    rw [portRangeText, List.head?_append_of_ne_nil _ (natToString_ne_nil _), hc]

theorem mapM_ok {α β : Type} {f : α → Result β} {g : β → α} (items : List β)
    (h : ∀ x ∈ items, f (g x) = .ok x) : (items.map g).mapM f = .ok items := by
  induction items with
  | nil => rfl
  | cons x items ih =>
    rw [List.map_cons, List.mapM_cons, h x (by simp), ih fun y hy => h y (by simp [hy])]
    rfl

/-- **Reading back a printed port expression.** -/
theorem parsePortExpr_toString {e : PortExpr} (h : e.Printable) :
    parsePortExpr e.toString = .ok e := by
  obtain ⟨any, negated, ranges⟩ := e
  cases any with
  | true =>
    obtain ⟨hneg, hranges⟩ := h.ofAny rfl
    cases hneg
    cases hranges
    rfl
  | false =>
    have hlist := (listText_ports h rfl).listPieces
    obtain ⟨htrim, hneg⟩ := hlist.readNegation_joined negated
    have htext : PortExpr.toString ⟨false, negated, ranges⟩ =
        (if negated then ['!'] else []) ++ [','].intercalate (ranges.map portRangeText) := rfl
    unfold parsePortExpr
    rw [htext]
    simp only [htrim, hneg]
    rw [if_neg (by simp [hlist.joined_ne_nil]), if_neg hlist.joined_ne_any, hlist.split_joined,
      mapM_ok ranges fun r hr => parsePortRange_portRangeText (h.range r hr)]
    rfl

/-! ## Addresses -/

/-- An address expression as the parser builds it, except for `!any`, an empty
list and variables with other characters than letters, digits and `_`. -/
structure AddressExpr.Printable (e : AddressExpr) : Prop where
  ofAny : e.any = true → e.negated = false ∧ e.ranges = [] ∧ e.vars = []
  ofList : e.any = false → e.ranges ≠ [] ∨ e.vars ≠ []
  range : ∀ r ∈ e.ranges, r.prefixLength ≤ 32 ∧ r.masked = r
  var : ∀ v ∈ e.vars, ∃ name, v = '$' :: name ∧ ∀ c ∈ name, isAlnum c = true ∨ c = '_'

/-- A printed range starts with a digit. -/
theorem exists_head_cidrToString (r : CIDRRange) :
    ∃ c, r.toString.head? = some c ∧ isDigit c = true := by
  obtain ⟨c, hc, hdigit⟩ :=
    exists_head_natToString (octet (r.network.value &&& cidrMask r.prefixLength) 24)
  exact ⟨c, by simp [CIDRRange.toString, ipv4ToString, hc], hdigit⟩

/-- The characters of an address in a list. -/
theorem mem_addressText {e : AddressExpr} (h : e.Printable) {p : Str}
    (hp : p ∈ e.ranges.map CIDRRange.toString ++ e.vars) {c : Char} (hc : c ∈ p) :
    isAlnum c = true ∨ c = '.' ∨ c = '/' ∨ c = '$' ∨ c = '_' := by
  rcases List.mem_append.mp hp with hp | hp
  · obtain ⟨r, -, rfl⟩ := List.mem_map.mp hp
    rcases mem_cidrToString hc with hc | hc | hc
    · exact Or.inl (by simp [Char.isAlphanum, hc])
    · exact Or.inr (Or.inl hc)
    · exact Or.inr (Or.inr (Or.inl hc))
  · obtain ⟨name, rfl, hname⟩ := h.var p hp
    rcases List.mem_cons.mp hc with rfl | hc
    · simp
    · rcases hname c hc with hc | hc
      · exact Or.inl hc
      · simp [hc]

theorem listText_addresses {e : AddressExpr} (h : e.Printable) (hlist : e.any = false) :
    ListText (e.ranges.map CIDRRange.toString ++ e.vars) := by
  refine ⟨?_, ?_, ?_, ?_⟩
  · rcases h.ofList hlist with hne | hne <;> simp [hne]
  · intro p hp c hc
    rcases mem_addressText h hp hc with hc | rfl | rfl | rfl | rfl
    · exact isSpace_of_isAlnum hc
    all_goals rfl
  · intro p hp hcomma
    rcases mem_addressText h hp hcomma with hc | hc | hc | hc | hc <;> cases hc
  · intro p hp
    rcases List.mem_append.mp hp with hp | hp
    · obtain ⟨r, -, rfl⟩ := List.mem_map.mp hp
      obtain ⟨c, hc, hdigit⟩ := exists_head_cidrToString r
      exact ⟨c, hc, Or.inl hdigit⟩
    · obtain ⟨name, rfl, -⟩ := h.var p hp
      exact ⟨'$', rfl, Or.inr rfl⟩

theorem parseAddressParts_ranges (expr : AddressExpr) (ranges : List CIDRRange) (parts : List Str)
    (h : ∀ r ∈ ranges, r.prefixLength ≤ 32 ∧ r.masked = r) :
    parseAddressParts expr (ranges.map CIDRRange.toString ++ parts) =
      parseAddressParts { expr with ranges := expr.ranges ++ ranges } parts := by
  induction ranges generalizing expr with
  | nil => simp
  | cons r ranges ih =>
    obtain ⟨hlength, hmasked⟩ := h r (by simp)
    have hread : parseCidr r.toString = some r := by rw [parseCidr_toString r hlength, hmasked]
    have hne : r.toString.isEmpty = false := by simp [CIDRRange.toString]
    have hdollar : r.toString.head? ≠ some '$' := by
      intro hhead
      rcases mem_cidrToString (List.mem_of_head? hhead) with hc | hc | hc <;> cases hc
    rw [List.map_cons, List.cons_append, parseAddressParts]
    simp only [trim_eq_self (noSpace_toString r).trimmed, hne, Bool.false_eq_true,
      if_false, hdollar, hread]
    rw [ih _ fun r' hr' => h r' (by simp [hr'])]
    simp

theorem parseAddressParts_vars (expr : AddressExpr) (vars : List Str)
    (h : ∀ v ∈ vars, v.head? = some '$' ∧ Trimmed v) :
    parseAddressParts expr vars = .ok { expr with vars := expr.vars ++ vars } := by
  induction vars generalizing expr with
  | nil => simp [parseAddressParts]
  | cons v vars ih =>
    obtain ⟨hhead, htrimmed⟩ := h v (by simp)
    have hne : v.isEmpty = false := by
      cases v with
      | nil => cases hhead
      | cons _ _ => rfl
    rw [parseAddressParts]
    simp only [trim_eq_self htrimmed, hne, Bool.false_eq_true, if_false, hhead, if_true]
    rw [ih _ fun v' hv' => h v' (by simp [hv'])]
    simp

/-- The lists of an address expression, as the parser builds them. -/
structure AddressExpr.Parts (e : AddressExpr) : Prop where
  range : ∀ r ∈ e.ranges, r.prefixLength ≤ 32 ∧ r.masked = r
  var : ∀ v ∈ e.vars, v.head? = some '$' ∧ Trimmed v ∧ ',' ∉ v

theorem AddressExpr.Parts.pieces {e : AddressExpr} (h : e.Parts)
    (hne : e.ranges ≠ [] ∨ e.vars ≠ []) :
    ListPieces (e.ranges.map CIDRRange.toString ++ e.vars) := by
  refine ⟨?_, ?_, ?_, ?_⟩
  · rcases hne with hne | hne <;> simp [hne]
  · intro p hp
    rcases List.mem_append.mp hp with hp | hp
    · obtain ⟨r, -, rfl⟩ := List.mem_map.mp hp
      exact (noSpace_toString r).trimmed
    · exact (h.var p hp).2.1
  · intro p hp
    rcases List.mem_append.mp hp with hp | hp
    · obtain ⟨r, -, rfl⟩ := List.mem_map.mp hp
      intro hcomma
      rcases mem_cidrToString hcomma with hc | hc | hc <;> cases hc
    · exact (h.var p hp).2.2
  · intro p hp
    rcases List.mem_append.mp hp with hp | hp
    · obtain ⟨r, -, rfl⟩ := List.mem_map.mp hp
      obtain ⟨c, hc, hdigit⟩ := exists_head_cidrToString r
      exact ⟨c, hc, Or.inl hdigit⟩
    · exact ⟨'$', (h.var p hp).1, Or.inr rfl⟩

/-- **Reading back a printed list of addresses.** -/
theorem AddressExpr.Parts.parse_toString {e : AddressExpr} (h : e.Parts) (hany : e.any = false)
    (hne : e.ranges ≠ [] ∨ e.vars ≠ []) : parseAddressExpr e.toString = .ok e := by
  have hpieces := h.pieces hne
  obtain ⟨any, negated, ranges, vars⟩ := e
  cases hany
  obtain ⟨htrim, hneg⟩ := hpieces.readNegation_joined negated
  have htext : AddressExpr.toString ⟨false, negated, ranges, vars⟩ =
      (if negated then ['!'] else []) ++
        [','].intercalate (ranges.map CIDRRange.toString ++ vars) := rfl
  unfold parseAddressExpr
  rw [htext]
  simp only [htrim, hneg]
  rw [if_neg (by simp [hpieces.joined_ne_nil]), if_neg hpieces.joined_ne_any, hpieces.split_joined,
    parseAddressParts_ranges _ _ _ h.range,
    parseAddressParts_vars _ _ fun v hv => ⟨(h.var v hv).1, (h.var v hv).2.1⟩]
  rfl

theorem AddressExpr.Printable.parts {e : AddressExpr} (h : e.Printable) : e.Parts := by
  refine ⟨h.range, fun v hv => ?_⟩
  obtain ⟨name, rfl, hname⟩ := h.var v hv
  have hchar : ∀ c ∈ '$' :: name, isSpace c = false ∧ c ≠ ',' := by
    intro c hc
    rcases List.mem_cons.mp hc with rfl | hc
    · decide
    rcases hname c hc with hc | rfl
    · refine ⟨isSpace_of_isAlnum hc, ?_⟩
      rintro rfl
      cases hc
    · decide
  have hspace : NoSpace ('$' :: name) := fun c hc => (hchar c hc).1
  exact ⟨rfl, hspace.trimmed, fun hc => (hchar _ hc).2 rfl⟩

/-- **Reading back a printed address expression.** -/
theorem parseAddressExpr_toString {e : AddressExpr} (h : e.Printable) :
    parseAddressExpr e.toString = .ok e := by
  by_cases hany : e.any = true
  · obtain ⟨any, negated, ranges, vars⟩ := e
    cases hany
    obtain ⟨hneg, hranges, hvars⟩ := h.ofAny rfl
    cases hneg
    cases hranges
    cases hvars
    rfl
  · rw [Bool.not_eq_true] at hany
    exact h.parts.parse_toString hany (h.ofList hany)

end PacketGuard.Rules
