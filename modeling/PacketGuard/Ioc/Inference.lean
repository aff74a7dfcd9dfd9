import PacketGuard.Core.Hex
import PacketGuard.Ioc.UrlForm

/-! # What type a name or a URL is taken for

`infer_ioc_type` asks for a hash before it asks for a URL or a name, and
`normalize_hash` keeps the hexadecimal digits of any text.  So a name or a URL
gets its own type exactly where the number of its hexadecimal digits is not the
length of a hash.
-/
namespace PacketGuard.Ioc
open PacketGuard.Core

/-- The lengths that `hash_length_is_known` knows. -/
def hashLengths : List Nat := [32, 40, 56, 64, 96, 128]

/-- A text with its type: a valid name that is no address, or a URL of the web.
The last text is the part in which hexadecimal digits may stand. -/
inductive Named : Str → IocType → Str → Prop
  | domain {v : Str} (valid : isValidDomain v = true) (notAddress : parseCidr v = none) :
    Named v .domain v
  | url (u : Url) (web : u.scheme = "http".toList ∨ u.scheme = "https".toList) :
    Named u.text .url (u.host ++ (portText u.port ++ u.path))

/-! ## Hexadecimal digits -/

theorem countP_toLower (value : Str) : (toLower value).countP isXDigit = value.countP isXDigit := by
  rw [toLower, List.countP_map]
  exact List.countP_congr fun c _ => by simp [isXDigit_toLower]

theorem countP_blank {value : Str} (h : Blank value) : value.countP isXDigit = 0 := by
  rw [List.countP_eq_zero]
  intro c hc hhex
  have hspace := h c hc
  simp only [isSpace, Bool.or_eq_true, beq_iff_eq] at hspace
  rcases hspace with ((((rfl | rfl) | rfl) | rfl) | rfl) | rfl <;> cases hhex

theorem countP_trim (value : Str) : (trim value).countP isXDigit = value.countP isXDigit := by
  obtain ⟨s, t, hs, ht, heq⟩ := exists_blank_trim value
  conv_rhs => rw [heq]
  rw [List.countP_append, List.countP_append, countP_blank hs, countP_blank ht]
  omega

/-- The length of a normal form without a prefix to drop. -/
theorem length_normalizeHash {v : Str} (h : ':' ∉ v) :
    (normalizeHash v).length = v.countP isXDigit := by
  have hcolon : ':' ∉ toLower (trim v) := not_mem_toLower rfl fun hc => h (mem_of_mem_trim hc)
  simp only [normalizeHash, find_eq_none hcolon]
  rw [toLower, List.length_map, ← List.countP_eq_length_filter]
  exact (countP_toLower _).trans (countP_trim v)

/-- Otherwise the text behind the first colon counts. -/
theorem length_normalizeHash_colon {v a b : Str} (hv : trim v = a ++ ':' :: b) (ha : ':' ∉ a) :
    (normalizeHash v).length = b.countP isXDigit := by
  have hcut : toLower (trim v) = toLower a ++ ':' :: toLower b := by
    rw [hv]
    exact toLower_append a (':' :: b)
  have hdrop : substr ((toLower a).length + 1) (toLower a ++ ':' :: toLower b) = toLower b := by
    simp [substr]
  simp only [normalizeHash, hcut, find_append_cons (not_mem_toLower rfl ha), hdrop]
  rw [toLower, List.length_map, ← List.countP_eq_length_filter]
  exact countP_toLower b

theorem isXDigit_of_mem_normalizeHash {v : Str} {c : Char} (hc : c ∈ normalizeHash v) :
    isXDigit c = true := by
  obtain ⟨d, hd, rfl⟩ := List.mem_map.mp hc
  rw [isXDigit_toLower]
  exact (List.mem_filter.mp hd).2

theorem hashLengthIsKnown_normalizeHash (v : Str) :
    hashLengthIsKnown (normalizeHash v) = true ↔ (normalizeHash v).length ∈ hashLengths := by
  have hcolon : ':' ∉ normalizeHash v := fun hc =>
    absurd (isXDigit_of_mem_normalizeHash hc) (by decide)
  have hlength : (normalizeHash (normalizeHash v)).length = (normalizeHash v).length := by
    rw [length_normalizeHash hcolon]
    exact List.countP_eq_length.mpr fun c hc => isXDigit_of_mem_normalizeHash hc
  simp [hashLengthIsKnown, hlength, hashLengths, or_assoc]

theorem le_of_mem_hashLengths : ∀ n ∈ hashLengths, 32 ≤ n := by decide

/-- The test for a hash is a test of the length alone: what it is applied to
holds hexadecimal digits only. -/
theorem hashTest_iff (v : Str) :
    (32 ≤ (normalizeHash v).length ∧ isHexString (normalizeHash v) = true ∧
        hashLengthIsKnown (normalizeHash v) = true) ↔
      (normalizeHash v).length ∈ hashLengths := by
  rw [hashLengthIsKnown_normalizeHash]
  refine ⟨fun h => h.2.2, fun h => ?_⟩
  have hlong := le_of_mem_hashLengths _ h
  have hne : (normalizeHash v).isEmpty = false := by
    rw [List.isEmpty_eq_false_iff]
    exact List.ne_nil_of_length_pos (by omega)
  refine ⟨hlong, ?_, h⟩
  rw [isHexString, hne, List.all_eq_true.mpr fun c hc => isXDigit_of_mem_normalizeHash hc]
  rfl

/-! ## Addresses -/

theorem mem_trim {value : Str} {c : Char} (h : c ∈ value) (hc : isSpace c = false) :
    c ∈ trim value := by
  obtain ⟨s, t, hs, ht, heq⟩ := exists_blank_trim value
  rw [heq, List.mem_append, List.mem_append] at h
  rcases h with (h | h) | h
  · rw [hs c h] at hc
    cases hc
  · exact h
  · rw [ht c h] at hc
    cases hc

/-- The parts of an address are decimal. -/
theorem isDecimal_of_parseIpv4Parts {value result : BitVec 32} {parts : List Str}
    (h : parseIpv4Parts value parts = some result) : ∀ p ∈ parts, isDecimal p = true := by
  induction parts generalizing value with
  | nil => exact fun p hp => absurd hp List.not_mem_nil
  | cons part parts ih =>
    rw [parseIpv4Parts] at h
    split at h
    · cases h
    rename_i hpart
    split at h
    · cases h
    intro p hp
    rcases List.mem_cons.mp hp with rfl | hp
    · simp only [Bool.or_eq_true, not_or, Bool.not_eq_true, Bool.not_eq_false'] at hpart
      exact hpart.1
    · exact ih h p hp

/-- A character that is neither a digit nor a separator stands in no address. -/
theorem parseIpv4_eq_none {text : Str} {c : Char} (h : c ∈ text) (hspace : isSpace c = false)
    (hdigit : isDigit c = false) (hdot : c ≠ '.') : parseIpv4 text = none := by
  obtain ⟨p, hp, hcp⟩ := mem_split (mem_trim h hspace) hdot
  unfold parseIpv4
  simp only
  split
  · rfl
  · cases hvalue : parseIpv4Parts 0 (split (trim text) '.' true) with
    | none => rfl
    | some value =>
      exact absurd hcp (not_mem_decimal (isDecimal_of_parseIpv4Parts hvalue p hp) hdigit)

theorem parseCidr_eq_none {text : Str} {c : Char} (h : c ∈ text) (hspace : isSpace c = false)
    (hdigit : isDigit c = false) (hdot : c ≠ '.') (hslash : c ≠ '/') : parseCidr text = none := by
  obtain ⟨p, hp, hcp⟩ := mem_split (mem_trim h hspace) hslash
  unfold parseCidr
  split
  · rename_i part hparts
    rw [hparts, List.mem_singleton] at hp
    subst hp
    rw [parseIpv4_eq_none hcp hspace hdigit hdot]
    rfl
  · rename_i part suffix hparts
    rw [hparts, List.mem_cons, List.mem_singleton] at hp
    split
    · rfl
    · rename_i hsuffix
      rcases hp with rfl | rfl
      · rw [parseIpv4_eq_none hcp hspace hdigit hdot]
        cases parseCidrPrefix suffix <;> rfl
      · exfalso
        simp only [isDecimal, Bool.not_eq_true', Bool.not_eq_false, Bool.and_eq_true,
          List.all_eq_true] at hsuffix
        rw [hsuffix.2 c hcp] at hdigit
        cases hdigit
  · rfl

/-! ## Inference -/

/-- What `infer_ioc_type` does with a text that is no address. -/
theorem inferIocType_eq {v : Str} (hne : trim v ≠ []) (haddress : parseCidr (trim v) = none) :
    inferIocType v =
      if (normalizeHash (trim v)).length ∈ hashLengths then some .hash
      else if startsWith (toLower (trim v)) "http://".toList ||
          startsWith (toLower (trim v)) "https://".toList then some .url
      else if isValidDomain (trim v) ||
          (startsWith (trim v) "*.".toList && isValidDomain (substr 2 (trim v))) then some .domain
      else none := by
  unfold inferIocType
  simp only [List.isEmpty_eq_false_iff.mpr hne, haddress, hashTest_iff, Option.isSome_none,
    Bool.false_eq_true, if_false]

theorem inferIocType_domain {v : Str} (valid : isValidDomain v = true)
    (notAddress : parseCidr v = none) :
    inferIocType v = if v.countP isXDigit ∈ hashLengths then some .hash else some .domain := by
  have hchars := fun c hc => hostChar_of_isValidDomain valid (c := c) hc
  obtain ⟨hcolon, hslash, -, -⟩ := not_mem_host hchars
  have hne : trim v ≠ [] := by
    intro hnil
    have hnormal : normalizeDomain v = [] := by
      rw [normalizeDomain, hnil]
      rfl
    exact (canonical_of_isValidDomain valid).nonempty hnormal
  have haddress : parseCidr (trim v) = none := by
    rw [parseCidr, trim_trim]
    exact notAddress
  have hvalid : isValidDomain (trim v) = true := by
    rw [isValidDomain, normalizeDomain, trim_trim]
    exact valid
  -- no URL is as short of slashes as a name is
  have hweb : ∀ scheme, '/' ∈ scheme → startsWith (toLower (trim v)) scheme = false := by
    intro scheme hmem
    rw [startsWith, Bool.eq_false_iff, ne_eq, List.isPrefixOf_iff_prefix]
    intro hpre
    exact not_mem_toLower rfl (fun hc => hslash (mem_of_mem_trim hc)) (hpre.subset hmem)
  rw [inferIocType_eq hne haddress, hweb _ (by decide), hweb _ (by decide), hvalid,
    length_normalizeHash fun hc => hcolon (mem_of_mem_trim hc), countP_trim]
  rfl

theorem inferIocType_url (u : Url) (web : u.scheme = "http".toList ∨ u.scheme = "https".toList) :
    inferIocType u.text =
      if (u.host ++ (portText u.port ++ u.path)).countP isXDigit ∈ hashLengths then some .hash
      else some .url := by
  obtain ⟨host, path, ⟨htrim, -, -, -⟩⟩ := u.trim_text
  have hne : trim u.text ≠ [] := by
    rw [htrim]
    simp
  have hmem : 'h' ∈ trim u.text := by
    rw [htrim]
    refine List.mem_append_left _ ?_
    rcases web with hscheme | hscheme <;> rw [hscheme] <;> decide
  have haddress := parseCidr_eq_none hmem rfl rfl (by decide) (by decide)
  have hcolon : ':' ∉ u.scheme := fun hc => (u.scheme_plain _ hc).1 rfl
  have hlength := length_normalizeHash_colon (v := trim u.text) (a := u.scheme)
    (b := "//".toList ++ (host ++ (portText u.port ++ path))) (by rw [trim_trim, htrim]; rfl) hcolon
  -- trimming takes no digits away
  have hcount : ("//".toList ++ (host ++ (portText u.port ++ path))).countP isXDigit =
      (u.host ++ (portText u.port ++ u.path)).countP isXDigit := by
    have hsame := countP_trim u.text
    rw [htrim, Url.text] at hsame
    simp only [List.countP_append] at hsame ⊢
    have hmarks : "://".toList.countP isXDigit = 0 ∧ "//".toList.countP isXDigit = 0 := by decide
    omega
  have hstart : (startsWith (toLower (trim u.text)) "http://".toList ||
      startsWith (toLower (trim u.text)) "https://".toList) = true := by
    rw [htrim]
    rcases web with hscheme | hscheme <;> rw [hscheme] <;> rfl
  rw [inferIocType_eq hne haddress, hlength, hcount, hstart]
  rfl

/-- **A name or a URL gets its own type exactly where the number of its
hexadecimal digits is not the length of a hash.** -/
theorem inferIocType_iff {text part : Str} {type : IocType} (h : Named text type part) :
    inferIocType text = some type ↔ part.countP isXDigit ∉ hashLengths := by
  have hcases : inferIocType text =
      if part.countP isXDigit ∈ hashLengths then some .hash else some type := by
    cases h with
    | domain valid notAddress => exact inferIocType_domain valid notAddress
    | url u web => exact inferIocType_url u web
  have hne : type ≠ .hash := by
    cases h <;> decide
  rw [hcases]
  by_cases hcount : part.countP isXDigit ∈ hashLengths
  · rw [if_pos hcount, Option.some.injEq]
    exact ⟨fun heq => absurd heq.symm hne, fun hnot => absurd hcount hnot⟩
  · rw [if_neg hcount]
    exact ⟨fun _ => hcount, fun _ => rfl⟩

theorem inferIocType_evil : inferIocType "evil.io".toList = some .domain :=
  (inferIocType_iff (.domain rfl rfl)).mpr (by decide)

/-- A URL whose path is an MD5 digest. -/
def digestUrl : Url where
  scheme := "http".toList
  host := "tiny.io".toList
  port := none
  path := "/d41d8cd98f00b204e9800998ecf8427e".toList
  scheme_plain := plain_http
  host_valid := rfl
  port_decimal := decimal_none
  path_start := Or.inr rfl

/-- A name with an MD5 digest for a label, and the URL, are taken for hashes. -/
theorem inferIocType_digest :
    isValidDomain "d41d8cd98f00b204e9800998ecf8427e.io".toList = true ∧
      parseCidr "d41d8cd98f00b204e9800998ecf8427e.io".toList = none ∧
      inferIocType "d41d8cd98f00b204e9800998ecf8427e.io".toList = some .hash ∧
      digestUrl.text = "http://tiny.io/d41d8cd98f00b204e9800998ecf8427e".toList ∧
      inferIocType digestUrl.text = some .hash :=
  ⟨rfl, rfl, (inferIocType_domain rfl rfl).trans (if_pos (by decide)), rfl,
    (inferIocType_url digestUrl (Or.inl rfl)).trans (if_pos (by decide))⟩

end PacketGuard.Ioc
