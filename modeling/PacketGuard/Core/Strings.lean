import PacketGuard.Core.Result

/-! The string helpers of `core/strings.cpp`, and the members of `std::string`
the parsers use. -/
namespace PacketGuard.Core

/-! ## Characters -/

/-- `std::isspace`. -/
def isSpace (c : Char) : Bool :=
  c == ' ' || c == '\t' || c == '\n' || c == '\r' || c == '\x0b' || c == '\x0c'

/-- `std::isdigit`. -/
abbrev isDigit (c : Char) : Bool := c.isDigit

/-- `std::isxdigit`. -/
def isXDigit (c : Char) : Bool :=
  isDigit c || ('a' ≤ c && c ≤ 'f') || ('A' ≤ c && c ≤ 'F')

/-- `std::isalnum`. -/
abbrev isAlnum (c : Char) : Bool := c.isAlphanum

/-- `c - '0'`. -/
def digitValue (c : Char) : Nat := c.toNat - '0'.toNat

/-! ## `std::string` -/

/-- `find(char)`. -/
def find (c : Char) (value : Str) : Option Nat := value.findIdx? (· == c)

/-- `rfind(char)`. -/
def rfind (c : Char) : Str → Option Nat
  | [] => none
  | d :: rest =>
    match rfind c rest with
    | some i => some (i + 1)
    | none => if d == c then some 0 else none

/-- `find(string)`. -/
def findStr (needle : Str) : Str → Option Nat
  | [] => if needle.isEmpty then some 0 else none
  | c :: rest =>
    if needle.isPrefixOf (c :: rest) then some 0 else (findStr needle rest).map (· + 1)

/-- `substr(pos)`, and `substr(pos, count)` as `substr pos |>.take count`. -/
def substr (pos : Nat) (value : Str) : Str := value.drop pos

/-- `std::to_string` of an unsigned number. -/
def natToString (n : Nat) : Str := Nat.toDigits 10 n

/-! ## `core/strings.cpp` -/

def toLower (value : Str) : Str := value.map Char.toLower

def toUpper (value : Str) : Str := value.map Char.toUpper

def trim (value : Str) : Str := (value.dropWhile isSpace).rdropWhile isSpace

/-- The strings successive calls of `std::getline(in, cur, delim)` read: a
delimiter at the very end is not followed by another (empty) string. -/
def getlines (delim : Char) (value : Str) : List Str :=
  let pieces := value.splitOn delim
  if pieces.getLast? = some [] then pieces.dropLast else pieces

def split (value : Str) (delim : Char) (keepEmpty : Bool := false) : List Str :=
  let out := (getlines delim value).filter (fun cur => keepEmpty || !cur.isEmpty)
  if keepEmpty && !value.isEmpty && value.getLast? == some delim then out ++ [[]] else out

/-- `in >> token` until the stream is exhausted. -/
def splitWs (value : Str) : List Str :=
  (value.splitOnP isSpace).filter (fun token => !token.isEmpty)

def startsWith (value start : Str) : Bool := start.isPrefixOf value

def endsWith (value ending : Str) : Bool := ending.isSuffixOf value

/-- The loop of `collapse_spaces`; `prev` says that a space was just written. -/
def collapseSpacesFrom (prev : Bool) : Str → Str
  | [] => []
  | c :: rest =>
    if isSpace c then
      if prev then collapseSpacesFrom true rest else ' ' :: collapseSpacesFrom true rest
    else c :: collapseSpacesFrom false rest

def collapseSpaces (value : Str) : Str := trim (collapseSpacesFrom false value)

def stripQuotes (value : Str) : Str :=
  let value := trim value
  if 2 ≤ value.length &&
      ((value.head? == some '"' && value.getLast? == some '"') ||
        (value.head? == some '\'' && value.getLast? == some '\'')) then
    (substr 1 value).take (value.length - 2)
  else value

def isHexString (value : Str) : Bool := !value.isEmpty && value.all isXDigit

def isDecimal (value : Str) : Bool := !value.isEmpty && value.all isDigit

def bytesToHex (data : List UInt8) : Str :=
  let lut := "0123456789abcdef".toList
  data.flatMap (fun b => [lut.getD (b.toNat >>> 4) '0', lut.getD (b.toNat &&& 15) '0'])

/-- The quote state of `remove_comment` after reading `c`: `in_quote` and
`quote` together are the open quote, if there is one. -/
def quoteStep (quote prev : Option Char) (c : Char) : Option Char :=
  if (c == '"' || c == '\'') && prev != some '\\' then
    match quote with
    | none => some c
    | some q => if q == c then none else some q
  else quote

/-- The loop of `remove_comment`; `prev` is `line[i - 1]`. -/
def removeCommentFrom (quote prev : Option Char) : Str → Str
  | [] => []
  | c :: rest =>
    let quote' := quoteStep quote prev c
    if quote' == none && c == '#' then []
    else if quote' == none && c == '/' && rest.head? == some '/' then []
    else c :: removeCommentFrom quote' (some c) rest

def removeComment (line : Str) : Str := removeCommentFrom none none line

/-- The digit loops of `parse_cidr_prefix`, `parse_port_range` and
`parse_u32_option`: accumulate modulo the width of the accumulator, and give up
as soon as the value exceeds `limit`. -/
def boundedDecimal (width limit : Nat) (value : Nat) : Str → Option Nat
  | [] => some value
  | c :: rest =>
    let value' := (value * 10 + digitValue c) % 2 ^ width
    if limit < value' then none else boundedDecimal width limit value' rest

/-! ## Trimming and splitting -/

/-- No character of the string is white space. -/
def NoSpace (value : Str) : Prop := ∀ c ∈ value, isSpace c = false

/-- A lower-case name without white space. -/
def PlainName (name : Str) : Prop := toLower name = name ∧ NoSpace name

/-- Neither end of the string is white space. -/
def Trimmed (value : Str) : Prop :=
  (∀ c, value.head? = some c → isSpace c = false) ∧
    ∀ c, value.getLast? = some c → isSpace c = false

theorem NoSpace.trimmed {value : Str} (h : NoSpace value) : Trimmed value :=
  ⟨fun c hc => h c (List.mem_of_head? hc), fun c hc => h c (List.mem_of_getLast? hc)⟩

theorem NoSpace.append {a b : Str} (ha : NoSpace a) (hb : NoSpace b) : NoSpace (a ++ b) := by
  intro c hc
  rcases List.mem_append.mp hc with hc | hc
  · exact ha c hc
  · exact hb c hc

theorem trim_eq_self {value : Str} (h : Trimmed value) : trim value = value := by
  have hd : value.dropWhile isSpace = value := by
    cases value with
    | nil => rfl
    | cons c rest => simp [h.1 c rfl]
  rw [trim, hd, List.rdropWhile_eq_self_iff]
  intro hne
  have := h.2 _ (List.getLast?_eq_some_getLast hne)
  simp [this]

theorem head?_of_isPrefix {a b : Str} (h : a <+: b) {c : Char} (hc : a.head? = some c) :
    b.head? = some c := by
  obtain ⟨t, rfl⟩ := h
  cases a with
  | nil => cases hc
  | cons d a => exact hc

theorem trimmed_trim (value : Str) : Trimmed (trim value) := by
  constructor
  · intro c hc
    have hd := head?_of_isPrefix (List.rdropWhile_prefix isSpace _) hc
    have hn := List.head?_dropWhile_not isSpace value
    rw [hd] at hn
    exact hn
  · intro c hc
    have hne : trim value ≠ [] := fun h => by rw [h] at hc; cases hc
    have hl := List.rdropWhile_last_not isSpace (value.dropWhile isSpace) hne
    have he : (trim value).getLast hne = c := by
      rw [List.getLast?_eq_some_getLast hne] at hc
      exact Option.some.inj hc
    rw [← he]
    exact Bool.eq_false_iff.mpr hl

theorem trim_trim (value : Str) : trim (trim value) = trim value :=
  trim_eq_self (trimmed_trim value)

/-- Only white space. -/
def Blank (value : Str) : Prop := ∀ c ∈ value, isSpace c = true

theorem dropWhile_append_of_head {p : Char → Bool} {s m : Str} (hs : ∀ c ∈ s, p c = true)
    (hm : ∀ c, m.head? = some c → p c = false) : (s ++ m).dropWhile p = m := by
  induction s with
  | nil =>
    cases m with
    | nil => rfl
    | cons c m => simp [hm c rfl]
  | cons c s ih =>
    rw [List.cons_append, List.dropWhile_cons_of_pos (hs c (by simp))]
    exact ih fun d hd => hs d (by simp [hd])

theorem rdropWhile_append_of_last {p : Char → Bool} {m t : Str} (ht : ∀ c ∈ t, p c = true)
    (hm : ∀ c, m.getLast? = some c → p c = false) : (m ++ t).rdropWhile p = m := by
  have hrev : (t.reverse ++ m.reverse).dropWhile p = m.reverse :=
    dropWhile_append_of_head (fun c hc => ht c (List.mem_reverse.mp hc))
      fun c hc => hm c (by rwa [List.head?_reverse] at hc)
  rw [List.rdropWhile, List.reverse_append, hrev, List.reverse_reverse]

theorem trim_blank_append {s m t : Str} (hs : Blank s) (hm : Trimmed m) (ht : Blank t)
    (hne : m ≠ []) : trim (s ++ m ++ t) = m := by
  have hhead : ∀ c, (m ++ t).head? = some c → isSpace c = false := by
    intro c hc
    cases m with
    | nil => exact absurd rfl hne
    | cons d m => exact hm.1 c hc
  rw [trim, List.append_assoc, dropWhile_append_of_head hs hhead,
    rdropWhile_append_of_last ht hm.2]

/-- A string is its trimmed part between two blank ones. -/
theorem exists_blank_trim (value : Str) :
    ∃ s t, Blank s ∧ Blank t ∧ value = s ++ trim value ++ t := by
  refine ⟨value.takeWhile isSpace, (value.dropWhile isSpace).rtakeWhile isSpace,
    fun c hc => List.mem_takeWhile_imp hc, fun c hc => List.mem_rtakeWhile_imp hc, ?_⟩
  rw [List.append_assoc, trim, List.rdropWhile_append_rtakeWhile, List.takeWhile_append_dropWhile]

/-- What stays when a blank is taken off either end stays when a string is trimmed. -/
theorem trim_induction {P : Str → Prop} (head : ∀ c rest, isSpace c = true → P (c :: rest) → P rest)
    (last : ∀ rest c, isSpace c = true → P (rest ++ [c]) → P rest) {value : Str} (h : P value) :
    P (trim value) := by
  obtain ⟨s, t, hs, ht, heq⟩ := exists_blank_trim value
  rw [heq] at h
  generalize trim value = m at h
  have hfront : P (m ++ t) := by
    clear heq
    induction s with
    | nil => exact h
    | cons c s ih =>
      obtain ⟨hc, hs⟩ := List.forall_mem_cons.mp hs
      exact ih hs (head c _ hc h)
  clear heq h
  induction t using List.reverseRecOn with
  | nil => rwa [List.append_nil] at hfront
  | append_singleton t c ih =>
    rw [← List.append_assoc] at hfront
    exact ih (fun d hd => ht d (List.mem_append_left _ hd))
      (last _ c (ht c (List.mem_append_right _ (List.mem_singleton_self c))) hfront)

theorem mem_of_mem_trim {value : Str} {c : Char} (h : c ∈ trim value) : c ∈ value := by
  obtain ⟨s, t, -, -, heq⟩ := exists_blank_trim value
  rw [heq]
  exact List.mem_append_left _ (List.mem_append_right _ h)

theorem NoSpace.not_mem {value : Str} (h : NoSpace value) : ' ' ∉ value := fun hc => by
  cases h ' ' hc

theorem noSpace_trim {value : Str} (h : NoSpace value) : NoSpace (trim value) := fun c hc =>
  h c (mem_of_mem_trim hc)

theorem noSpace_stripQuotes {value : Str} (h : NoSpace value) : NoSpace (stripQuotes value) := by
  unfold stripQuotes
  simp only
  split
  · exact fun c hc => noSpace_trim h c (List.mem_of_mem_drop (List.mem_of_mem_take hc))
  · exact noSpace_trim h

theorem trim_eq_nil_iff {value : Str} : trim value = [] ↔ Blank value := by
  obtain ⟨s, t, hs, ht, heq⟩ := exists_blank_trim value
  constructor
  · intro hnil
    rw [hnil, List.append_nil] at heq
    rw [heq]
    exact fun c hc => (List.mem_append.mp hc).elim (hs c) (ht c)
  · intro hblank
    by_contra hne
    obtain ⟨c, rest, hcons⟩ := List.exists_cons_of_ne_nil hne
    have hspace := (trimmed_trim value).1 c (by rw [hcons]; rfl)
    rw [hblank c (mem_of_mem_trim (by rw [hcons]; simp))] at hspace
    cases hspace

theorem toLower_append (a b : Str) : toLower (a ++ b) = toLower a ++ toLower b :=
  List.map_append

@[simp] theorem toLower_toLower (value : Str) : toLower (toLower value) = toLower value := by
  simp [toLower]

/-- The parts of a lower-case text are lower-case. -/
theorem toLower_of_append {a b : Str} (h : toLower (a ++ b) = a ++ b) :
    toLower a = a ∧ toLower b = b := by
  rw [toLower_append] at h
  exact List.append_inj h (List.length_map _)

theorem PlainName.append {a b : Str} (ha : PlainName a) (hb : PlainName b) : PlainName (a ++ b) :=
  ⟨by rw [toLower_append, ha.1, hb.1], ha.2.append hb.2⟩

/-- White space has no case. -/
theorem Blank.toLower_eq {value : Str} (h : Blank value) : toLower value = value := by
  have hchar : ∀ c ∈ value, c.toLower = id c := by
    intro c hc
    have hspace := h c hc
    simp only [isSpace, Bool.or_eq_true, beq_iff_eq] at hspace
    rcases hspace with ((((rfl | rfl) | rfl) | rfl) | rfl) | rfl <;> rfl
  rw [toLower, List.map_congr_left hchar, List.map_id]

/-- Lower-casing keeps white space and its absence. -/
theorem isSpace_toLower (c : Char) : isSpace c.toLower = isSpace c := by
  by_cases hu : c.isUpper
  · have hlower : c.toLower.isAlpha := by simp [Char.isAlpha, hu]
    have hnot : ∀ d : Char, d.isAlpha → isSpace d = false := by
      intro d hd
      by_contra hspace
      rw [Bool.not_eq_false] at hspace
      simp only [isSpace, Bool.or_eq_true, beq_iff_eq] at hspace
      rcases hspace with ((((rfl | rfl) | rfl) | rfl) | rfl) | rfl <;> cases hd
    rw [hnot _ hlower, hnot c (by simp [Char.isAlpha, hu])]
  · rw [Char.toLower_eq_of_not_isUpper hu]

theorem toLower_of_isDigit {c : Char} (h : isDigit c = true) : c.toLower = c := by
  refine Char.toLower_eq_of_not_isUpper fun hu => ?_
  have hdigit := Char.isDigit_iff_toNat.mp h
  have hupper : 'A'.toNat ≤ c.toNat := by
    simp only [Char.isUpper, decide_eq_true_eq] at hu
    exact hu.1
  have hA : 'A'.toNat = 65 := rfl
  have h9 : '9'.toNat = 57 := rfl
  omega

/-! ## Searching -/

theorem find_eq_none {c : Char} {value : Str} (h : c ∉ value) : find c value = none := by
  rw [find, List.findIdx?_eq_none_iff]
  exact fun d hd => beq_false_of_ne fun heq => h (heq ▸ hd)

theorem find_append_cons {c : Char} {a : Str} (h : c ∉ a) (b : Str) :
    find c (a ++ c :: b) = some a.length := by
  have hnone := find_eq_none h
  rw [find] at hnone
  simp [find, List.findIdx?_append, hnone, List.findIdx?_cons]

/-- Texts with a separator that does not come up before it are equal piece by piece. -/
theorem append_cons_inj {c : Char} {a a' b b' : Str} (h : c ∉ a) (h' : c ∉ a') :
    a ++ c :: b = a' ++ c :: b' ↔ a = a' ∧ b = b' := by
  constructor
  · intro heq
    have hlength : a.length = a'.length := by
      have hfind := find_append_cons h b
      rw [heq, find_append_cons h' b', Option.some.injEq] at hfind
      exact hfind.symm
    obtain ⟨ha, hb⟩ := List.append_inj heq hlength
    exact ⟨ha, (List.cons.inj hb).2⟩
  · rintro ⟨rfl, rfl⟩
    rfl

theorem rfind_eq_none {c : Char} {value : Str} (h : c ∉ value) : rfind c value = none := by
  induction value with
  | nil => rfl
  | cons d value ih =>
    rw [List.mem_cons, not_or] at h
    rw [rfind, ih h.2]
    exact if_neg fun heq => h.1 (beq_iff_eq.mp heq).symm

theorem rfind_append_cons {c : Char} {b : Str} (h : c ∉ b) (a : Str) :
    rfind c (a ++ c :: b) = some a.length := by
  induction a with
  | nil => simp [rfind, rfind_eq_none h]
  | cons d a ih => simp [rfind, ih]

/-- A text is found where it is a part. -/
theorem findStr_isSome_iff {needle text : Str} :
    (findStr needle text).isSome = true ↔ needle <:+: text := by
  induction text with
  | nil =>
    rw [findStr, List.infix_nil]
    cases needle <;> simp
  | cons c rest ih =>
    rw [findStr, List.infix_cons_iff, ← ih, ← List.isPrefixOf_iff_prefix]
    split
    · rename_i hpre
      exact iff_of_true rfl (.inl hpre)
    · rename_i hpre
      rw [Option.isSome_map, or_iff_right hpre]

/-! ## Splitting -/

theorem splitWs_token {token : Str} (h : NoSpace token) (hne : token ≠ []) :
    splitWs token = [token] := by
  simp [splitWs, List.splitOnP_eq_singleton h, hne]

theorem splitWs_cons {token : Str} (h : NoSpace token) (hne : token ≠ []) (rest : Str) :
    splitWs (token ++ ' ' :: rest) = token :: splitWs rest := by
  have hspace : isSpace ' ' = true := rfl
  simp [splitWs, List.splitOnP_append_cons_of_forall_mem h _ hspace, hne]

/-- Tokens joined by single blanks split back into the tokens. -/
theorem splitWs_intercalate {tokens : List Str} (hne : tokens ≠ [])
    (h : ∀ t ∈ tokens, NoSpace t ∧ t ≠ []) : splitWs ([' '].intercalate tokens) = tokens := by
  induction tokens with
  | nil => exact absurd rfl hne
  | cons t tokens ih =>
    obtain ⟨hspace, ht⟩ := h t (by simp)
    cases tokens with
    | nil => simpa using splitWs_token hspace ht
    | cons t' tokens =>
      rw [List.intercalate_cons_cons, List.append_assoc]
      have hrest := ih (by simp) fun u hu => h u (by simp [hu])
      rw [show [' '] ++ [' '].intercalate (t' :: tokens) = ' ' :: [' '].intercalate (t' :: tokens)
        from rfl, splitWs_cons hspace ht, hrest]

/-- Single blanks do not collapse. -/
theorem collapseSpacesFrom_flatMap {tokens : List Str} (h : ∀ t ∈ tokens, NoSpace t ∧ t ≠ [])
    (prev : Bool) :
    collapseSpacesFrom prev (tokens.flatMap (· ++ [' '])) = tokens.flatMap (· ++ [' ']) := by
  have htoken : ∀ (t : Str), NoSpace t → ∀ rest,
      collapseSpacesFrom false (t ++ rest) = t ++ collapseSpacesFrom false rest := by
    intro t ht rest
    induction t with
    | nil => rfl
    | cons c t ih =>
      rw [List.cons_append, collapseSpacesFrom, if_neg (by simp [ht c (by simp)]),
        ih fun d hd => ht d (by simp [hd])]
      rfl
  induction tokens generalizing prev with
  | nil => rfl
  | cons t tokens ih =>
    obtain ⟨hspace, ht⟩ := h t (by simp)
    have hrest := ih (fun u hu => h u (by simp [hu])) true
    obtain ⟨c, t', rfl⟩ := List.exists_cons_of_ne_nil ht
    have hc : isSpace c = false := hspace c (by simp)
    rw [List.flatMap_cons, List.append_assoc, List.cons_append, collapseSpacesFrom,
      if_neg (by simp [hc]), htoken t' fun d hd => hspace d (by simp [hd])]
    simp only [List.singleton_append, collapseSpacesFrom, Bool.false_eq_true, if_false]
    rw [if_pos (by rfl), hrest]

theorem flatMap_blank_eq {tokens : List Str} (hne : tokens ≠ []) :
    tokens.flatMap (· ++ [' ']) = [' '].intercalate tokens ++ [' '] := by
  induction tokens with
  | nil => exact absurd rfl hne
  | cons t tokens ih =>
    cases tokens with
    | nil => simp
    | cons t' tokens =>
      rw [List.flatMap_cons, ih (by simp), List.intercalate_cons_cons]
      simp

/-- A character of the string is the delimiter or lies in a piece. -/
theorem mem_splitOn {delim c : Char} {value : Str} (h : c ∈ value) (hc : c ≠ delim) :
    ∃ p ∈ value.splitOn delim, c ∈ p := by
  induction value with
  | nil => cases h
  | cons d value ih =>
    obtain ⟨first, pieces, hpieces⟩ := List.exists_cons_of_ne_nil (List.splitOn_ne_nil delim value)
    rw [List.splitOn_cons_eq_if_modifyHead, hpieces]
    -- a delimiter starts a new piece, any other character joins the first
    by_cases hd : (d == delim) = true
    · rw [if_pos hd]
      rcases List.mem_cons.mp h with rfl | h
      · exact absurd (beq_iff_eq.mp hd) hc
      · obtain ⟨p, hp, hcp⟩ := ih h
        rw [hpieces] at hp
        exact ⟨p, List.mem_cons_of_mem _ hp, hcp⟩
    · rw [if_neg hd]
      rcases List.mem_cons.mp h with rfl | h
      · exact ⟨c :: first, by simp, by simp⟩
      · obtain ⟨p, hp, hcp⟩ := ih h
        rw [hpieces] at hp
        rcases List.mem_cons.mp hp with rfl | hp
        · exact ⟨d :: p, by simp, by simp [hcp]⟩
        · exact ⟨p, by simp [hp], hcp⟩

/-- The pieces of a text are its lines, and possibly an empty one behind them. -/
theorem splitOn_eq_getlines (delim : Char) (value : Str) :
    value.splitOn delim = getlines delim value ∨
      value.splitOn delim = getlines delim value ++ [[]] := by
  unfold getlines
  by_cases hlast : (value.splitOn delim).getLast? = some []
  · rw [if_pos hlast]
    exact .inr (List.dropLast_append_getLast? [] hlast).symm
  · rw [if_neg hlast]
    exact .inl rfl

/-- The pieces are made of the characters between those where the text is cut. -/
theorem of_mem_splitOnP {cut : Char → Bool} {c : Char} {value p : Str} (hp : p ∈ value.splitOnP cut)
    (hc : c ∈ p) : c ∈ value ∧ cut c = false := by
  induction value generalizing p with
  | nil =>
    rw [List.splitOnP_nil, List.mem_singleton] at hp
    rw [hp] at hc
    cases hc
  | cons d value ih =>
    obtain ⟨first, pieces, hpieces⟩ := List.exists_cons_of_ne_nil (List.splitOnP_ne_nil cut value)
    have hrest : ∀ {q}, q ∈ first :: pieces → c ∈ q → c ∈ d :: value ∧ cut c = false := by
      intro q hq hcq
      obtain ⟨hmem, hcut⟩ := ih (by rwa [hpieces]) hcq
      exact ⟨List.mem_cons_of_mem _ hmem, hcut⟩
    rw [List.splitOnP_cons_eq_if_modifyHead, hpieces] at hp
    by_cases hd : cut d = true
    · rw [if_pos hd] at hp
      rcases List.mem_cons.mp hp with rfl | hp
      · cases hc
      · exact hrest hp hc
    · rw [if_neg hd] at hp
      rcases List.mem_cons.mp hp with rfl | hp
      · rcases List.mem_cons.mp hc with rfl | hc
        · exact ⟨List.mem_cons_self, Bool.eq_false_iff.mpr hd⟩
        · exact hrest List.mem_cons_self hc
      · exact hrest (List.mem_cons_of_mem _ hp) hc

theorem of_mem_splitOn {delim c : Char} {value p : Str} (hp : p ∈ value.splitOn delim)
    (hc : c ∈ p) :
    c ∈ value ∧ c ≠ delim := by
  rw [List.splitOn_eq_splitOnP] at hp
  obtain ⟨hmem, hcut⟩ := of_mem_splitOnP hp hc
  exact ⟨hmem, beq_eq_false_iff_ne.mp hcut⟩

/-- The tokens of a line hold no white space. -/
theorem noSpace_of_mem_splitWs {value token : Str} (h : token ∈ splitWs value) : NoSpace token :=
  fun _ hc => (of_mem_splitOnP (List.mem_filter.mp h).1 hc).2

/-- The pieces of a text are parts of it, the first one at its start. -/
theorem infix_of_mem_splitOnP {cut : Char → Bool} {value p : Str} (hp : p ∈ value.splitOnP cut) :
    p <:+: value := by
  have hpieces : (∀ first pieces, value.splitOnP cut = first :: pieces → first <+: value) ∧
      ∀ p ∈ value.splitOnP cut, p <:+: value := by
    clear hp
    induction value with
    | nil => simp [List.splitOnP_nil]
    | cons d value ih =>
      obtain ⟨first, pieces, hsplit⟩ := List.exists_cons_of_ne_nil (List.splitOnP_ne_nil cut value)
      have hfirst := ih.1 first pieces hsplit
      have hrest : ∀ p ∈ first :: pieces, p <:+: d :: value := fun p hp =>
        (ih.2 p (hsplit ▸ hp)).trans (List.suffix_cons d value).isInfix
      rw [List.splitOnP_cons_eq_if_modifyHead, hsplit]
      by_cases hd : cut d = true
      · rw [if_pos hd]
        refine ⟨?_, List.forall_mem_cons.mpr ⟨List.nil_infix, hrest⟩⟩
        rintro _ _ ⟨⟩
        exact List.nil_prefix
      · rw [if_neg hd, List.modifyHead_cons]
        have hcons : d :: first <+: d :: value := List.cons_prefix_cons.mpr ⟨rfl, hfirst⟩
        refine ⟨?_, List.forall_mem_cons.mpr ⟨hcons.isInfix, (List.forall_mem_cons.mp hrest).2⟩⟩
        rintro _ _ ⟨⟩
        exact hcons
  exact hpieces.2 p hp

theorem infix_of_mem_splitWs {value token : Str} (h : token ∈ splitWs value) : token <:+: value :=
  infix_of_mem_splitOnP (List.mem_filter.mp h).1

/-- What stands between two blanks is a token of the line. -/
theorem mem_splitWs_of_infix {token value : Str} (h : NoSpace token) (hne : token ≠ [])
    (hin : ' ' :: token ++ [' '] <:+: value) : token ∈ splitWs value := by
  obtain ⟨before, after, rfl⟩ := hin
  have hspace : isSpace ' ' = true := rfl
  have hvalue : before ++ (' ' :: token ++ [' ']) ++ after = before ++ ' ' ::
      (token ++ ' ' :: after) := by simp
  rw [hvalue, splitWs, List.splitOnP_append_cons before _ hspace,
    List.splitOnP_append_cons_of_forall_mem h ' ' hspace]
  simp [hne]

/-- Without empty pieces, `split` gives the pieces that are not empty. -/
theorem mem_split_false {delim : Char} {value p : Str} :
    p ∈ split value delim ↔ p ∈ value.splitOn delim ∧ p ≠ [] := by
  have hlines : ∀ {p : Str}, p ≠ [] → (p ∈ getlines delim value ↔ p ∈ value.splitOn delim) := by
    intro p hne
    obtain hpieces | hpieces := splitOn_eq_getlines delim value
    · rw [hpieces]
    · rw [hpieces, List.mem_append, List.mem_singleton, or_iff_left hne]
  simp only [split, Bool.false_or, Bool.false_and, Bool.false_eq_true, if_false, List.mem_filter,
    Bool.not_eq_true', List.isEmpty_eq_false_iff]
  exact and_congr_left hlines

theorem mem_split {delim c : Char} {value : Str} (h : c ∈ value) (hc : c ≠ delim) :
    ∃ p ∈ split value delim true, c ∈ p := by
  obtain ⟨p, hp, hcp⟩ := mem_splitOn h hc
  -- `getline` drops an empty last piece only, and the piece of `c` is not empty
  have hlines : p ∈ getlines delim value := by
    unfold getlines
    by_cases hlast : (value.splitOn delim).getLast? = some []
    · rw [← List.dropLast_append_getLast? _ hlast] at hp
      rcases List.mem_append.mp hp with hp | hp
      · rwa [if_pos hlast]
      · rw [List.mem_singleton.mp hp] at hcp
        cases hcp
    · rwa [if_neg hlast]
  refine ⟨p, ?_, hcp⟩
  unfold split
  simp only [Bool.true_or, List.filter_true]
  by_cases hend : (!value.isEmpty && value.getLast? == some delim) = true
  · rw [Bool.true_and, if_pos hend]
    exact List.mem_append_left _ hlines
  · rw [Bool.true_and, if_neg hend]
    exact hlines

/-- A delimiter at the start or at the end leaves an empty piece. -/
theorem nil_mem_split_of_getLast? {delim : Char} {value : Str}
    (h : value.getLast? = some delim) : [] ∈ split value delim true := by
  have hne : value.isEmpty = false := by
    cases value with
    | nil => cases h
    | cons _ _ => rfl
  simp [split, hne, h]

theorem nil_mem_split_of_head? {delim : Char} {value : Str} (h : value.head? = some delim) :
    [] ∈ split value delim true := by
  obtain ⟨rest, rfl⟩ : ∃ rest, value = delim :: rest := by
    cases value with
    | nil => cases h
    | cons d rest =>
      cases h
      exact ⟨rest, rfl⟩
  obtain ⟨first, pieces, hpieces⟩ := List.exists_cons_of_ne_nil (List.splitOn_ne_nil delim rest)
  have hsplit : (delim :: rest).splitOn delim = [] :: first :: pieces := by
    rw [List.splitOn_cons_eq_if_modifyHead, if_pos (by simp), hpieces]
  have hlines : [] ∈ getlines delim (delim :: rest) := by
    rw [getlines, hsplit]
    by_cases hlast : ([] :: first :: pieces).getLast? = some []
    · rw [if_pos hlast]
      simp
    · rw [if_neg hlast]
      simp
  unfold split
  simp only [Bool.true_or, List.filter_true]
  split
  · exact List.mem_append_left _ hlines
  · exact hlines

theorem getlines_intercalate {delim : Char} {parts : List Str} (hne : parts ≠ [])
    (hd : ∀ p ∈ parts, delim ∉ p) (hlast : parts.getLast? ≠ some []) :
    getlines delim ([delim].intercalate parts) = parts := by
  rw [getlines, List.splitOn_intercalate delim hd hne, if_neg hlast]

/-- Joining, as the first piece followed by the others, each behind a separator. -/
theorem intercalate_cons_eq (sep piece : Str) (pieces : List Str) :
    sep.intercalate (piece :: pieces) = piece ++ pieces.flatMap (sep ++ ·) := by
  induction pieces generalizing piece with
  | nil => simp
  | cons next pieces ih =>
    rw [List.intercalate_cons_cons, ih next, List.flatMap_cons]
    simp

/-- Text behind a joined one is text behind its last piece. -/
theorem intercalate_concat_append (sep last tail : Str) (init : List Str) :
    sep.intercalate (init ++ [last ++ tail]) = sep.intercalate (init ++ [last]) ++ tail := by
  cases init with
  | nil => simp
  | cons piece pieces =>
    rw [List.cons_append, List.cons_append, intercalate_cons_eq, intercalate_cons_eq]
    simp

/-- `split` that keeps empty pieces gives all pieces, of every text but the empty one. -/
theorem split_true_eq {delim : Char} {value : Str} (hne : value ≠ []) :
    split value delim true = value.splitOn delim := by
  obtain rfl | ⟨front, c, rfl⟩ := List.eq_nil_or_concat value
  · exact absurd rfl hne
  rw [List.concat_eq_append]
  by_cases hc : c = delim
  · -- the line reader leaves out the piece behind the last delimiter, and `split` adds it
    subst hc
    have hpieces : (front ++ [c]).splitOn c = front.splitOn c ++ [[]] := by
      rw [List.splitOn_append_cons_self, List.splitOn_nil]
    simp [split, getlines, hpieces]
  · obtain ⟨init, last, hinit⟩ : ∃ init last, front.splitOn delim = init ++ [last] := by
      obtain hnil | ⟨init, last, hconcat⟩ := List.eq_nil_or_concat (front.splitOn delim)
      · exact absurd hnil (List.splitOn_ne_nil _ _)
      · exact ⟨init, last, by rw [hconcat, List.concat_eq_append]⟩
    have hpieces : (front ++ [c]).splitOn delim = init ++ [last ++ [c]] := by
      have hjoin := intercalate_concat_append [delim] last [c] init
      rw [← hinit, List.intercalate_splitOn] at hjoin
      rw [← hjoin, List.splitOn_intercalate]
      · intro p hp hdelim
        rw [List.mem_append, List.mem_singleton] at hp
        have hmem : ∀ q ∈ init ++ [last], delim ∉ q := by
          intro q hq hdelim
          rw [← hinit] at hq
          exact (of_mem_splitOn hq hdelim).2 rfl
        rcases hp with hp | rfl
        · exact hmem p (List.mem_append_left _ hp) hdelim
        · rw [List.mem_append, List.mem_singleton] at hdelim
          rcases hdelim with hdelim | hdelim
          · exact hmem last (by simp) hdelim
          · exact hc hdelim.symm
      · simp
    simp [split, getlines, hpieces, hc]

/-- The pieces of a text are what it is joined from. -/
theorem split_true_eq_iff {delim : Char} {value : Str} (hne : value ≠ []) {parts : List Str} :
    split value delim true = parts ↔
      parts ≠ [] ∧ (∀ p ∈ parts, delim ∉ p) ∧ value = [delim].intercalate parts := by
  rw [split_true_eq hne]
  constructor
  · rintro rfl
    exact ⟨List.splitOn_ne_nil _ _, fun p hp hdelim => (of_mem_splitOn hp hdelim).2 rfl,
      (List.intercalate_splitOn delim).symm⟩
  · rintro ⟨hparts, hdelim, rfl⟩
    exact List.splitOn_intercalate delim hdelim hparts

/-- A joined text says what was joined. -/
theorem intercalate_inj {delim : Char} {parts parts' : List Str} (hne : parts ≠ [])
    (hne' : parts' ≠ [])
    (h : ∀ p ∈ parts, delim ∉ p) (h' : ∀ p ∈ parts', delim ∉ p)
    (heq : [delim].intercalate parts = [delim].intercalate parts') : parts = parts' := by
  rw [← List.splitOn_intercalate delim h hne, heq, List.splitOn_intercalate delim h' hne']

theorem getLast?_intercalate {delim : Char} {parts : List Str} {p : Str}
    (hlast : parts.getLast? = some p) (hp : p ≠ []) :
    ([delim].intercalate parts).getLast? = p.getLast? := by
  induction parts with
  | nil => cases hlast
  | cons q parts ih =>
    cases parts with
    | nil =>
      cases hlast
      simp
    | cons r parts =>
      rw [List.getLast?_cons_cons] at hlast
      rw [List.intercalate_cons_cons]
      have h := ih hlast
      have hne : [delim].intercalate (r :: parts) ≠ [] := by
        intro h0
        rw [h0] at h
        exact hp (List.getLast?_eq_none_iff.mp h.symm)
      rw [List.getLast?_append_of_ne_nil _ hne, h]

/-- Joined pieces split back into the pieces, when none of them holds the
delimiter and the last is not empty. -/
theorem split_keep_intercalate {delim : Char} {parts : List Str} (hne : parts ≠ [])
    (hd : ∀ p ∈ parts, delim ∉ p) (hlast : parts.getLast? ≠ some []) :
    split ([delim].intercalate parts) delim true = parts := by
  obtain ⟨p, hp⟩ : ∃ p, parts.getLast? = some p := ⟨_, List.getLast?_eq_some_getLast hne⟩
  have hpne : p ≠ [] := fun h => hlast (h ▸ hp)
  have hjoined : [delim].intercalate parts ≠ [] := by
    intro hnil
    have hend : ([delim].intercalate parts).getLast? = p.getLast? := getLast?_intercalate hp hpne
    rw [hnil] at hend
    exact hpne (List.getLast?_eq_none_iff.mp hend.symm)
  exact (split_true_eq_iff hjoined).mpr ⟨hne, hd, rfl⟩

theorem split_intercalate {delim : Char} {parts : List Str} (hne : parts ≠ [])
    (hd : ∀ p ∈ parts, delim ∉ p) (hall : ∀ p ∈ parts, p ≠ []) :
    split ([delim].intercalate parts) delim false = parts := by
  have hlast : parts.getLast? ≠ some [] := fun h => hall [] (List.mem_of_getLast? h) rfl
  simp only [split, getlines_intercalate hne hd hlast, Bool.false_or, Bool.false_and,
    Bool.false_eq_true, if_false]
  apply List.filter_eq_self.mpr
  intro p hp
  simpa using hall p hp

theorem trimmed_intercalate {tokens : List Str} (hne : tokens ≠ [])
    (h : ∀ t ∈ tokens, NoSpace t ∧ t ≠ []) :
    Trimmed ([' '].intercalate tokens) := by
  constructor
  · intro c hc
    obtain ⟨t, tokens', rfl⟩ := List.exists_cons_of_ne_nil hne
    obtain ⟨hspace, ht⟩ := h t (by simp)
    rw [intercalate_cons_eq, List.head?_append_of_ne_nil _ ht] at hc
    exact hspace c (List.mem_of_head? hc)
  · intro c hc
    obtain ⟨t, hlast⟩ : ∃ t, tokens.getLast? = some t := ⟨_, List.getLast?_eq_some_getLast hne⟩
    obtain ⟨hspace, ht⟩ := h t (List.mem_of_getLast? hlast)
    rw [getLast?_intercalate hlast ht] at hc
    exact hspace c (List.mem_of_getLast? hc)

theorem intercalate_ne_nil {sep : Str} {tokens : List Str} (hne : tokens ≠ [])
    (h : ∀ t ∈ tokens, t ≠ []) :
    sep.intercalate tokens ≠ [] := by
  obtain ⟨t, tokens', rfl⟩ := List.exists_cons_of_ne_nil hne
  rw [intercalate_cons_eq]
  simp [h t (by simp)]

/-- **Tokens with a blank behind each** are what the header of a line splits into. -/
theorem splitWs_collapseSpaces {tokens : List Str} (hne : tokens ≠ [])
    (h : ∀ t ∈ tokens, NoSpace t ∧ t ≠ []) :
    splitWs (collapseSpaces (tokens.flatMap (· ++ [' ']))) = tokens := by
  have hjoined : [' '].intercalate tokens ≠ [] := intercalate_ne_nil hne fun t ht => (h t ht).2
  have hblank : Blank [' '] := by
    intro c hc
    rw [List.mem_singleton.mp hc]
    rfl
  -- the blank behind the last token is all that `collapse_spaces` trims off
  have htrim := trim_blank_append (fun _ hc => absurd hc List.not_mem_nil)
    (trimmed_intercalate hne h) hblank hjoined
    (s := [])
  rw [List.nil_append] at htrim
  rw [collapseSpaces, collapseSpacesFrom_flatMap h, flatMap_blank_eq hne, htrim,
    splitWs_intercalate hne h]

/-- A text without the separator lies on one side of it. -/
theorem infix_append_cons {needle a b : Str} {c : Char} (hc : c ∉ needle)
    (h : needle <:+: a ++ c :: b) :
    needle <:+: a ∨ needle <:+: b := by
  obtain ⟨front, back, heq⟩ := h
  rw [List.append_assoc] at heq
  rcases List.append_eq_append_iff.mp heq with ⟨a', rfl, hrest⟩ | ⟨b', rfl, hrest⟩
  · rcases List.append_eq_append_iff.mp hrest with ⟨a'', rfl, -⟩ | ⟨n', rfl, hback⟩
    · exact .inl ⟨front, a'', by rw [List.append_assoc]⟩
    · cases n' with
      | nil => exact .inl ⟨front, [], by simp⟩
      | cons d n' =>
        cases hback
        exact absurd (by simp) hc
  · cases b' with
    | nil =>
      rw [List.nil_append] at hrest
      cases needle with
      | nil => exact .inl (List.nil_infix)
      | cons d needle =>
        cases hrest
        exact absurd List.mem_cons_self hc
    | cons d b' =>
      cases hrest
      exact .inr ⟨b', back, List.append_assoc b' needle back⟩

theorem infix_intercalate {needle : Str} {c : Char} (hc : c ∉ needle) (hne : needle ≠ [])
    {tokens : List Str}
    (h : needle <:+: [c].intercalate tokens) : ∃ t ∈ tokens, needle <:+: t := by
  induction tokens with
  | nil => exact absurd (List.infix_nil.mp h) hne
  | cons t tokens ih =>
    cases tokens with
    | nil =>
      rw [List.intercalate_singleton] at h
      exact ⟨t, List.mem_cons_self, h⟩
    | cons next tokens =>
      rw [List.intercalate_cons_cons, List.append_assoc, List.singleton_append] at h
      rcases infix_append_cons hc h with h | h
      · exact ⟨t, List.mem_cons_self, h⟩
      · obtain ⟨u, hu, hin⟩ := ih h
        exact ⟨u, List.mem_cons_of_mem _ hu, hin⟩

/-! ## Decimal numbers -/

theorem ofDigitChars_ge (digits : Str) (value : Nat) :
    value ≤ Nat.ofDigitChars 10 digits value := by
  induction digits generalizing value with
  | nil => simp
  | cons c digits ih =>
    rw [Nat.ofDigitChars_cons]
    exact Nat.le_trans (by omega) (ih _)

theorem digitValue_le {c : Char} (h : isDigit c) : digitValue c ≤ 9 := by
  have := Char.isDigit_iff_toNat.mp h
  have h0 : '0'.toNat = 48 := rfl
  have h9 : '9'.toNat = 57 := rfl
  simp only [digitValue]
  omega

/-- **No accumulator wraps**: a bounded digit loop computes the number the digits
denote, when it is at most `limit`, and gives up otherwise. -/
theorem boundedDecimal_eq {width limit : Nat} (hw : limit * 10 + 9 < 2 ^ width) {digits : Str}
    (hd : digits.all isDigit) {value : Nat} (hv : value ≤ limit) :
    boundedDecimal width limit value digits =
      if Nat.ofDigitChars 10 digits value ≤ limit then some (Nat.ofDigitChars 10 digits value)
      else none := by
  induction digits generalizing value with
  | nil => simp [boundedDecimal, hv]
  | cons c digits ih =>
    rw [List.all_cons, Bool.and_eq_true] at hd
    have hc := digitValue_le hd.1
    have hval : (value * 10 + digitValue c) % 2 ^ width = value * 10 + digitValue c :=
      Nat.mod_eq_of_lt (by omega)
    have hstep : Nat.ofDigitChars 10 (c :: digits) value =
        Nat.ofDigitChars 10 digits (value * 10 + digitValue c) := by
      rw [Nat.ofDigitChars_cons, Nat.mul_comm, digitValue]
    rw [boundedDecimal, hval, hstep]
    -- more digits cannot bring the number back below the limit
    by_cases hgt : limit < value * 10 + digitValue c
    · have := ofDigitChars_ge digits (value * 10 + digitValue c)
      rw [if_pos hgt, if_neg (by omega)]
    · rw [if_neg hgt, ih hd.2 (by omega)]

theorem boundedDecimal_le {width limit value n : Nat} {digits : Str} (hv : value ≤ limit)
    (h : boundedDecimal width limit value digits = some n) : n ≤ limit := by
  induction digits generalizing value with
  | nil =>
    cases h
    exact hv
  | cons c digits ih =>
    rw [boundedDecimal] at h
    split at h
    · cases h
    · exact ih (by omega) h

theorem isDecimal_iff {value : Str} :
    isDecimal value = true ↔ value ≠ [] ∧ value.all isDigit = true := by
  rw [isDecimal, Bool.and_eq_true, Bool.not_eq_true', List.isEmpty_eq_false_iff]

theorem isDigit_of_mem_decimal {value : Str} (h : isDecimal value = true) {c : Char}
    (hc : c ∈ value) :
    isDigit c = true :=
  List.all_eq_true.mp (isDecimal_iff.mp h).2 c hc

theorem not_mem_decimal {value : Str} (h : isDecimal value = true) {c : Char}
    (hc : isDigit c = false) :
    c ∉ value := by
  intro hmem
  rw [isDigit_of_mem_decimal h hmem] at hc
  cases hc

theorem isDecimal_natToString (n : Nat) : isDecimal (natToString n) := by
  have hne : natToString n ≠ [] := Nat.toDigits_ne_nil
  rw [isDecimal_iff, List.all_eq_true]
  exact ⟨hne, fun c hc => Nat.isDigit_of_mem_toDigits (by decide) (by decide) hc⟩

theorem isSpace_of_isAlnum {c : Char} (h : isAlnum c = true) : isSpace c = false := by
  by_contra hspace
  rw [Bool.not_eq_false] at hspace
  simp only [isSpace, Bool.or_eq_true, beq_iff_eq] at hspace
  rcases hspace with ((((rfl | rfl) | rfl) | rfl) | rfl) | rfl <;> cases h

theorem isSpace_of_isDigit {c : Char} (h : isDigit c) : isSpace c = false :=
  isSpace_of_isAlnum (by simp [Char.isAlphanum, h])

theorem noSpace_decimal {value : Str} (h : isDecimal value = true) : NoSpace value := fun _ hc =>
  isSpace_of_isDigit (isDigit_of_mem_decimal h hc)

theorem not_mem_natToString {c : Char} (hc : isDigit c = false) (n : Nat) : c ∉ natToString n :=
  not_mem_decimal (isDecimal_natToString n) hc

theorem natToString_ne_nil (n : Nat) : natToString n ≠ [] := Nat.toDigits_ne_nil

theorem exists_head_natToString (n : Nat) :
    ∃ c, (natToString n).head? = some c ∧ isDigit c = true := by
  obtain ⟨c, rest, hc⟩ := List.exists_cons_of_ne_nil (natToString_ne_nil n)
  have hmem : c ∈ natToString n := by
    rw [hc]
    simp
  exact ⟨c, by rw [hc]; rfl, isDigit_of_mem_decimal (isDecimal_natToString n) hmem⟩

theorem noSpace_natToString (n : Nat) : NoSpace (natToString n) :=
  noSpace_decimal (isDecimal_natToString n)

theorem boundedDecimal_natToString {width limit n : Nat} (hw : limit * 10 + 9 < 2 ^ width)
    (hn : n ≤ limit) : boundedDecimal width limit 0 (natToString n) = some n := by
  have hd := isDecimal_iff.mp (isDecimal_natToString n)
  rw [boundedDecimal_eq hw hd.2 (Nat.zero_le _), natToString,
    Nat.ofDigitChars_ten_toDigits, if_pos hn]

end PacketGuard.Core
