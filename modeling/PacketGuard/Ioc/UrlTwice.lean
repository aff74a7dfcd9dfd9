import PacketGuard.Ioc.UrlForm

/-! # Normalizing a URL twice

The parts of a URL may hold blanks, a user, a port without digits and any scheme
without `://`.  What `normalize_url` puts together is a URL with the same cuts,
whose parts are in normal form already: so a second run changes nothing.
-/
namespace PacketGuard.Ioc
open PacketGuard.Core

/-- The parts of a URL, as they are written. -/
structure UrlParts where
  scheme : Option Str
  user : Option Str
  host : Str
  port : Option Str
  path : Str

/-- What is written behind the scheme. -/
def UrlParts.rest (u : UrlParts) : Str :=
  u.user.elim [] (· ++ ['@']) ++ (u.host ++ (portText u.port ++ u.path))

def UrlParts.text (u : UrlParts) : Str := u.scheme.elim [] (· ++ "://".toList) ++ u.rest

/-- The scheme ends at the first `://`, and without a scheme there is none; the user ends before the
path; the host is valid, and the port is decimal, if it is not empty. -/
structure UrlParts.Loose (u : UrlParts) : Prop where
  scheme : ∀ scheme, u.scheme = some scheme → ¬ "://".toList <:+: scheme
  whole : u.scheme = none → ¬ "://".toList <:+: u.text
  user : ∀ user, u.user = some user → '/' ∉ user
  host : isValidDomain u.host = true
  port : ∀ c ∈ u.port.getD [], isDigit c = true
  path : u.path = [] ∨ u.path.head? = some '/'

/-! ## Trimming -/

/-- The text has such parts. -/
def LooseText (text : Str) : Prop := ∃ u : UrlParts, u.Loose ∧ u.text = text

theorem trim_cons {c : Char} (hc : isSpace c = true) (rest : Str) :
    trim (c :: rest) = trim rest := by
  rw [trim, List.dropWhile_cons_of_pos hc, trim]

theorem trim_concat (rest : Str) {c : Char} (hc : isSpace c = true) :
    trim (rest ++ [c]) = trim rest := by
  have hblank : Blank [c] := by
    intro d hd
    rw [List.mem_singleton.mp hd]
    exact hc
  obtain ⟨s, t, hs, ht, heq⟩ := exists_blank_trim rest
  by_cases hnil : trim rest = []
  · rw [hnil, trim_eq_nil_iff]
    rw [trim_eq_nil_iff] at hnil
    exact fun d hd => (List.mem_append.mp hd).elim (hnil d) (hblank d)
  · conv_lhs => rw [heq, List.append_assoc]
    exact trim_blank_append hs (trimmed_trim rest)
      (fun d hd => (List.mem_append.mp hd).elim (ht d) (hblank d)) hnil

theorem isValidDomain_of_trim {domain domain' : Str} (h : trim domain = trim domain')
    (hvalid : isValidDomain domain = true) : isValidDomain domain' = true := by
  rw [← hvalid]
  refine isValidDomain_congr ?_
  rw [normalizeDomain, normalizeDomain, h]

theorem ne_nil_of_isValidDomain {domain : Str} (h : isValidDomain domain = true) : domain ≠ [] := by
  rintro rfl
  cases h

/-- Without a scheme, no part of the text holds a `://`. -/
theorem UrlParts.Loose.not_infix_of_infix {u : UrlParts} (h : u.Loose) {rest : Str}
    (hrest : rest <:+: u.text)
    (hnone : u.scheme = none) : ¬ "://".toList <:+: rest :=
  fun hin => h.whole hnone (hin.trans hrest)

/-- Neither the colon nor the digits of a port are blanks. -/
theorem isSpace_of_mem_port {port : Str} (h : ∀ c ∈ port, isDigit c = true) {c : Char}
    (hc : c ∈ ':' :: port) :
    isSpace c = false := by
  rcases List.mem_cons.mp hc with rfl | hdigit
  · rfl
  · exact isSpace_of_isDigit (h c hdigit)

/-- A blank in front of a URL is a part of the first of its parts. -/
theorem LooseText.of_cons {c : Char} {rest : Str} (hc : isSpace c = true)
    (h : LooseText (c :: rest)) :
    LooseText rest := by
  obtain ⟨⟨scheme, user, host, port, path⟩, hu, htext⟩ := h
  have hwhole := hu.not_infix_of_infix (htext ▸ (List.suffix_cons c rest).isInfix)
  rcases scheme with _ | _ | ⟨d, scheme⟩
  · rcases user with _ | _ | ⟨d, user⟩
    · obtain ⟨d, host, rfl⟩ := List.exists_cons_of_ne_nil (ne_nil_of_isValidDomain hu.host)
      cases htext
      refine ⟨⟨none, none, host, port, path⟩, ⟨hu.scheme, hwhole, hu.user, ?_, hu.port, hu.path⟩,
        rfl⟩
      exact isValidDomain_of_trim (trim_cons hc host) hu.host
    · cases htext
      cases hc
    · cases htext
      refine ⟨⟨none, some user, host, port, path⟩,
        ⟨hu.scheme, hwhole, ?_, hu.host, hu.port, hu.path⟩, rfl⟩
      intro user' huser hslash
      cases huser
      exact hu.user _ rfl (List.mem_cons_of_mem _ hslash)
  · cases htext
    cases hc
  · cases htext
    refine ⟨⟨some scheme, user, host, port, path⟩, ⟨?_, ?_, hu.user, hu.host, hu.port, hu.path⟩,
      rfl⟩
    · intro scheme' hscheme hin
      cases hscheme
      exact hu.scheme _ rfl (hin.trans (List.suffix_cons _ _).isInfix)
    · intro hnone
      cases hnone

/-- A blank behind a URL is a part of the path or, where there is neither path nor
port, of the host. -/
theorem LooseText.of_concat {c : Char} {rest : Str} (hc : isSpace c = true)
    (h : LooseText (rest ++ [c])) :
    LooseText rest := by
  obtain ⟨⟨scheme, user, host, port, path⟩, hu, htext⟩ := h
  have hwhole := hu.not_infix_of_infix (htext ▸ (List.prefix_append rest [c]).isInfix)
  rcases List.eq_nil_or_concat' path with rfl | ⟨path, d, rfl⟩
  · rcases port with _ | port
    · obtain ⟨host, d, rfl⟩ := (List.eq_nil_or_concat' host).resolve_left
        (ne_nil_of_isValidDomain hu.host)
      have hlast : (UrlParts.text ⟨scheme, user, host, none, []⟩) ++ [d] = rest ++ [c] := by
        rw [← htext]
        simp [UrlParts.text, UrlParts.rest, portText]
      obtain ⟨rfl, hd⟩ := List.append_inj' hlast rfl
      cases hd
      refine ⟨⟨scheme, user, host, none, []⟩, ⟨hu.scheme, hwhole, hu.user, ?_, hu.port, hu.path⟩,
        rfl⟩
      exact isValidDomain_of_trim (trim_concat host hc) hu.host
    · obtain ⟨front, d, hport⟩ := (List.eq_nil_or_concat' (':' :: port)).resolve_left
        (List.cons_ne_nil _ _)
      have hlast : (UrlParts.text ⟨scheme, user, host, none, []⟩ ++ front) ++ [d] =
          rest ++ [c] := by
        rw [← htext, List.append_assoc, ← hport]
        simp [UrlParts.text, UrlParts.rest, portText]
      obtain ⟨-, hd⟩ := List.append_inj' hlast rfl
      cases hd
      have hplain := isSpace_of_mem_port hu.port
        (hport ▸ List.mem_append_right _ (List.mem_singleton_self c))
      rw [hplain] at hc
      cases hc
  · have hlast : (UrlParts.text ⟨scheme, user, host, port, path⟩) ++ [d] = rest ++ [c] := by
      rw [← htext]
      simp [UrlParts.text, UrlParts.rest]
    obtain ⟨rfl, hd⟩ := List.append_inj' hlast rfl
    cases hd
    refine ⟨⟨scheme, user, host, port, path⟩, ⟨hu.scheme, hwhole, hu.user, hu.host, hu.port, ?_⟩,
      rfl⟩
    by_cases hnil : path = []
    · exact .inl hnil
    · right
      have hhead := hu.path.resolve_left (by simp)
      rwa [List.head?_append_of_ne_nil _ hnil] at hhead

/-- **Trimming** a URL leaves a URL. -/
theorem LooseText.trim {text : Str} (h : LooseText text) : LooseText (trim text) :=
  trim_induction (fun _ _ hc => LooseText.of_cons hc) (fun _ _ hc => LooseText.of_concat hc) h

/-! ## Cutting and joining -/

/-- The scheme that `normalize_url` writes. -/
def UrlParts.writtenScheme (u : UrlParts) : Str := u.scheme.elim "http".toList toLower

/-- The path that `normalize_url` starts from. -/
def UrlParts.wholePath (u : UrlParts) : Str := if u.path = [] then "/".toList else u.path

theorem cutScheme_eq_of_not_infix {v : Str} (h : ¬ "://".toList <:+: v) :
    cutScheme v = ("http".toList, v) := by
  rw [← findStr_isSome_iff, Bool.not_eq_true, Option.isSome_eq_false_iff, Option.isNone_iff_eq_none]
    at h
  rw [cutScheme, h]

theorem UrlParts.Loose.cutScheme_eq {u : UrlParts} (h : u.Loose) :
    cutScheme u.text = (u.writtenScheme, u.rest) := by
  have hwhole := h.whole
  unfold UrlParts.text at hwhole ⊢
  unfold UrlParts.writtenScheme
  cases hscheme : u.scheme with
  | none =>
    rw [hscheme] at hwhole
    exact cutScheme_eq_of_not_infix (hwhole rfl)
  | some scheme =>
    rw [Option.elim_some, Option.elim_some, List.append_assoc]
    exact cutScheme_append (h.scheme scheme hscheme) u.rest

/-- What stands between the scheme and the path. -/
def UrlParts.authority (u : UrlParts) : Str :=
  u.user.elim [] (· ++ ['@']) ++ (u.host ++ portText u.port)

theorem UrlParts.Loose.not_mem_authority {u : UrlParts} (h : u.Loose) : '/' ∉ u.authority := by
  have hhost := (not_mem_host fun c hc => hostChar_of_isValidDomain h.host hc).2.1
  have hport := (not_mem_portText h.port).1
  have huser := h.user
  unfold UrlParts.authority
  rw [List.mem_append, List.mem_append, not_or, not_or]
  refine ⟨?_, hhost, hport⟩
  cases hnone : u.user with
  | none => exact List.not_mem_nil
  | some user =>
    rw [Option.elim_some, List.mem_append, not_or]
    exact ⟨huser user hnone, by decide⟩

theorem UrlParts.Loose.cutUser_eq {u : UrlParts} (h : u.Loose) :
    cutUser u.authority = u.host ++ portText u.port := by
  have hat : '@' ∉ u.host ++ portText u.port := by
    rw [List.mem_append, not_or]
    exact ⟨(not_mem_host fun c hc => hostChar_of_isValidDomain h.host hc).2.2.1,
      (not_mem_portText h.port).2.1⟩
  unfold UrlParts.authority
  cases u.user with
  | none => exact cutUser_eq_self hat
  | some user =>
    rw [Option.elim_some, cutUser, List.append_assoc, List.singleton_append, rfind_append_cons hat]
    simp [substr]

/-- **The cuts** find the parts of a URL. -/
theorem UrlParts.Loose.normalizeUrl_eq {u : UrlParts} (h : u.Loose) (htrim : Trimmed u.text) :
    normalizeUrl u.text = joinUrl u.writtenScheme u.host (u.port.getD []) u.wholePath := by
  obtain ⟨hcolon, -, -, hbracket⟩ := not_mem_host fun c hc => hostChar_of_isValidDomain h.host hc
  have hrest : u.rest = u.authority ++ u.path := by
    simp only [UrlParts.rest, UrlParts.authority, List.append_assoc]
  rw [Ioc.normalizeUrl_eq, trim_eq_self htrim, h.cutScheme_eq, hrest,
    cutPath_append h.not_mem_authority h.path, h.cutUser_eq, cutPort_append hcolon hbracket h.port]
  rfl

/-! ## The normal form of a normal form -/

/-- A text without letters is lower-case. -/
theorem toLower_eq_self {value : Str} (h : ∀ c ∈ toLower value, c.isAlpha = false) :
    toLower value = value := by
  have hchar : ∀ c ∈ value, c.toLower = id c := by
    intro c hc
    have hlower := h c.toLower (List.mem_map_of_mem hc)
    refine Char.toLower_eq_of_not_isUpper fun hu => ?_
    have halpha : c.toLower.isAlpha = true := by simp [Char.isAlpha, hu]
    rw [halpha] at hlower
    cases hlower
  rw [toLower, List.map_congr_left hchar, List.map_id]

/-- Lower-casing does not make a `://`. -/
theorem not_infix_toLower {scheme : Str} (h : ¬ "://".toList <:+: scheme) :
    ¬ "://".toList <:+: toLower scheme := by
  rintro ⟨front, back, heq⟩
  obtain ⟨rest, back', hscheme, hrest, -⟩ := List.map_eq_append_iff.mp heq.symm
  obtain ⟨front', sep, hfront, -, hsep⟩ := List.map_eq_append_iff.mp hrest
  have hplain : ∀ c ∈ toLower sep, c.isAlpha = false := by
    rw [toLower, hsep]
    simp [Char.isAlpha]
  have hsame := toLower_eq_self hplain
  rw [toLower, hsep] at hsame
  refine h ⟨front', back', ?_⟩
  rw [hscheme, hfront, hsame]

theorem replaceSlashes_false_ne_nil {path : Str} (h : path ≠ []) :
    replaceSlashes false path ≠ [] := by
  obtain ⟨c, rest, rfl⟩ := List.exists_cons_of_ne_nil h
  rw [replaceSlashes]
  split
  · rw [if_neg Bool.false_ne_true]
    exact List.cons_ne_nil _ _
  · exact List.cons_ne_nil _ _

/-- The last character of a path stays, or the path ends with a slash. -/
theorem getLast?_replaceSlashes {path : Str} {after : Bool} {c : Char}
    (h : (replaceSlashes after path).getLast? = some c) : c = '/' ∨ path.getLast? = some c := by
  induction path generalizing after with
  | nil => exact .inr h
  | cons d rest ih =>
    have hrest : ∀ {after}, (replaceSlashes after rest).getLast? = some c →
        c = '/' ∨ (d :: rest).getLast? = some c := by
      intro after hlast
      refine (ih hlast).imp_right fun hlast => ?_
      have hne : rest ≠ [] := by
        rintro rfl
        cases hlast
      rwa [List.getLast?_cons_of_ne_nil hne]
    rw [replaceSlashes] at h
    split at h
    · split at h
      · exact hrest h
      · by_cases hnil : replaceSlashes true rest = []
        · rw [hnil] at h
          cases h
          exact .inl rfl
        · rw [List.getLast?_cons_of_ne_nil hnil] at h
          exact hrest h
    · by_cases hnil : rest = []
      · subst hnil
        exact .inr h
      · rw [List.getLast?_cons_of_ne_nil (replaceSlashes_false_ne_nil hnil)] at h
        exact hrest h

theorem getLast?_collapseSlashes {path : Str} {c : Char}
    (h : (collapseSlashes path).getLast? = some c) :
    c = '/' ∨ path.getLast? = some c := by
  fun_induction collapseSlashes path with
  | case1 path hdouble ih => exact (ih h).elim .inl getLast?_replaceSlashes
  | case2 path hsingle => exact .inr h

theorem collapseSlashes_collapseSlashes (path : Str) :
    collapseSlashes (collapseSlashes path) = collapseSlashes path := by
  fun_induction collapseSlashes path with
  | case1 path hdouble ih => exact ih
  | case2 path hsingle => rw [collapseSlashes, dif_neg hsingle]

theorem portOrEmpty_portOrEmpty (scheme port : Str) :
    portOrEmpty scheme (portOrEmpty scheme port) = portOrEmpty scheme port := by
  unfold portOrEmpty
  split
  · exact ite_self _
  · rfl

/-- The parts of a normal form. -/
def writtenParts (scheme host port path : Str) : UrlParts where
  scheme := some scheme
  user := none
  host := normalizeDomain host
  port := if portOrEmpty scheme port = [] then none else some (portOrEmpty scheme port)
  path := collapseSlashes path

theorem text_writtenParts (scheme host port path : Str) :
    (writtenParts scheme host port path).text = joinUrl scheme host port path := by
  unfold joinUrl UrlParts.text UrlParts.rest writtenParts portText
  by_cases hnil : portOrEmpty scheme port = []
  · simp [hnil]
  · simp [hnil, List.isEmpty_eq_false_iff.mpr hnil]

theorem getD_writtenParts (scheme host port path : Str) :
    (writtenParts scheme host port path).port.getD [] = portOrEmpty scheme port := by
  unfold writtenParts
  split
  · exact Eq.symm ‹_›
  · rfl

section Written
variable {scheme host port path : Str} (hscheme : ¬ "://".toList <:+: scheme)
    (hhost : isValidDomain host = true)
  (hport : ∀ c ∈ port, isDigit c = true) (hpath : path.head? = some '/')

include hscheme hhost hport hpath in
theorem loose_writtenParts : (writtenParts scheme host port path).Loose where
  scheme := by
    intro scheme' hsame
    cases hsame
    exact hscheme
  whole hnone := by cases hnone
  user user hsome := by cases hsome
  host := by
    rw [← hhost]
    exact isValidDomain_congr (canonical_of_isValidDomain hhost).normalizeDomain_eq
  port := by
    rw [getD_writtenParts]
    unfold portOrEmpty
    split
    · exact fun c hc => absurd hc List.not_mem_nil
    · exact hport
  path := .inr (head?_collapseSlashes hpath)

variable (hhead : ∀ c, scheme.head? = some c → isSpace c = false)
  (hlast : ∀ c, path.getLast? = some c → isSpace c = false)

include hpath hhead hlast in
theorem trimmed_writtenParts : Trimmed (writtenParts scheme host port path).text := by
  have hne : collapseSlashes path ≠ [] := by
    intro hnil
    have hslash := head?_collapseSlashes hpath
    rw [hnil] at hslash
    cases hslash
  constructor
  · intro c hc
    cases scheme with
    | nil =>
      cases hc
      rfl
    | cons d scheme =>
      cases hc
      exact hhead c rfl
  · intro c hc
    rw [text_writtenParts, joinUrl, List.getLast?_append_of_ne_nil _ hne] at hc
    rcases getLast?_collapseSlashes hc with rfl | hc
    · rfl
    · exact hlast c hc

include hscheme hhost hport hpath hhead hlast in
/-- **A normal form** is its own normal form. -/
theorem normalizeUrl_joinUrl (hlower : toLower scheme = scheme) :
    normalizeUrl (joinUrl scheme host port path) = joinUrl scheme host port path := by
  have hwhole : (writtenParts scheme host port path).wholePath = collapseSlashes path := by
    refine if_neg fun hnil => ?_
    have hslash := head?_collapseSlashes hpath
    rw [show collapseSlashes path = [] from hnil] at hslash
    cases hslash
  have hnormal := (loose_writtenParts hscheme hhost hport hpath).normalizeUrl_eq
    (trimmed_writtenParts hpath hhead hlast)
  rw [text_writtenParts, getD_writtenParts, hwhole] at hnormal
  rw [hnormal]
  have hscheme' : (writtenParts scheme host port path).writtenScheme = scheme := hlower
  have hhost' : normalizeDomain (writtenParts scheme host port path).host = normalizeDomain host :=
    (canonical_of_isValidDomain hhost).normalizeDomain_eq
  rw [hscheme', joinUrl, joinUrl, hhost', portOrEmpty_portOrEmpty, collapseSlashes_collapseSlashes]

end Written

namespace UrlParts.Loose
variable {u : UrlParts}

theorem writtenScheme_not_infix (h : u.Loose) : ¬ "://".toList <:+: u.writtenScheme := by
  unfold UrlParts.writtenScheme
  cases hscheme : u.scheme with
  | none => exact scheme_not_infix (by decide)
  | some scheme => exact not_infix_toLower (h.scheme scheme hscheme)

theorem head?_wholePath (h : u.Loose) : u.wholePath.head? = some '/' := by
  unfold UrlParts.wholePath
  split
  · rfl
  · exact h.path.resolve_left ‹_›

end UrlParts.Loose

theorem toLower_writtenScheme (u : UrlParts) : toLower u.writtenScheme = u.writtenScheme := by
  unfold UrlParts.writtenScheme
  cases u.scheme with
  | none => rfl
  | some scheme => exact toLower_toLower scheme

section Ends
variable {u : UrlParts} (htrim : Trimmed u.text)

include htrim in
/-- A scheme that is written stands at the start of the text. -/
theorem isSpace_head_writtenScheme {c : Char} (hc : u.writtenScheme.head? = some c) :
    isSpace c = false := by
  unfold UrlParts.writtenScheme at hc
  cases hscheme : u.scheme with
  | none =>
    rw [hscheme] at hc
    cases hc
    rfl
  | some scheme =>
    rw [hscheme, Option.elim_some, toLower, List.head?_map] at hc
    obtain ⟨d, hd, rfl⟩ := Option.map_eq_some_iff.mp hc
    rw [isSpace_toLower]
    refine htrim.1 d ?_
    rw [UrlParts.text, hscheme, Option.elim_some, List.append_assoc]
    exact head?_of_isPrefix (List.prefix_append _ _) hd

include htrim in
/-- A path that is written stands at the end of the text. -/
theorem isSpace_last_wholePath {c : Char} (hc : u.wholePath.getLast? = some c) :
    isSpace c = false := by
  unfold UrlParts.wholePath at hc
  split at hc
  · cases hc
    rfl
  · rename_i hne
    refine htrim.2 c ?_
    rw [UrlParts.text, UrlParts.rest, List.getLast?_append_of_ne_nil _ (by simp [hne]),
      List.getLast?_append_of_ne_nil _ (by simp [hne]),
        List.getLast?_append_of_ne_nil _ (by simp [hne]),
      List.getLast?_append_of_ne_nil _ hne]
    exact hc

end Ends

/-- **Normalizing a URL twice** is normalizing it once. -/
theorem normalizeUrl_normalizeUrl {u : UrlParts} (h : u.Loose) :
    normalizeUrl (normalizeUrl u.text) = normalizeUrl u.text := by
  obtain ⟨v, hv, htext⟩ := LooseText.trim ⟨u, h, rfl⟩
  have htrimmed : Trimmed v.text := by
    rw [htext]
    exact trimmed_trim u.text
  have hsame : normalizeUrl u.text = normalizeUrl v.text := by
    rw [normalizeUrl_eq, normalizeUrl_eq, htext, trim_trim]
  rw [hsame, hv.normalizeUrl_eq htrimmed]
  exact normalizeUrl_joinUrl hv.writtenScheme_not_infix hv.host hv.port hv.head?_wholePath
    (fun _ hc => isSpace_head_writtenScheme htrimmed hc)
      (fun _ hc => isSpace_last_wholePath htrimmed hc)
    (toLower_writtenScheme v)

/-- A user with an `@`, an empty port, a wildcard in front of the host and two
slashes in the path. -/
theorem normalizeUrl_normalizeUrl_user :
    normalizeUrl (normalizeUrl " HTTP://a@b@*.Example.com.:/x//y ".toList) =
      normalizeUrl " HTTP://a@b@*.Example.com.:/x//y ".toList := by
  have hscheme : ∀ scheme, some " HTTP".toList = some scheme → ¬ "://".toList <:+: scheme := by
    intro scheme hsome
    cases hsome
    exact scheme_not_infix (by decide)
  have huser : ∀ user, some "a@b".toList = some user → '/' ∉ user := by
    intro user hsome
    cases hsome
    decide
  exact normalizeUrl_normalizeUrl
    (u := ⟨some " HTTP".toList, some "a@b".toList, "*.Example.com.".toList, some [],
      "/x//y ".toList⟩)
    ⟨hscheme, fun hnone => absurd hnone (Option.some_ne_none _), huser, rfl, by simp, .inr rfl⟩

end PacketGuard.Ioc
