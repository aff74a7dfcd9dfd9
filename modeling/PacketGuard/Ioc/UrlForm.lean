import PacketGuard.Ioc.Names

/-! # The normal form of a URL

`normalize_url` cuts a URL at its scheme, its path, its user and its port, and
puts together what it keeps: the scheme in lower case, the normal form of the
host, a port other than the default one, and the path without double slashes.
-/
namespace PacketGuard.Ioc
open PacketGuard.Core

/-- A URL: scheme, host, perhaps a port and perhaps a path. -/
structure Url where
  scheme : Str
  host : Str
  port : Option Str
  path : Str
  scheme_plain : ∀ c ∈ scheme, c ≠ ':' ∧ isSpace c = false
  host_valid : isValidDomain host = true
  port_decimal : port.all isDecimal = true
  path_start : path = [] ∨ path.head? = some '/'

theorem plain_http : ∀ c ∈ "http".toList, c ≠ ':' ∧ isSpace c = false := by simp [isSpace]

/-- A URL may name no port. -/
theorem decimal_none : (none : Option Str).all isDecimal = true := rfl

/-- What stands between the host and the path. -/
def portText (port : Option Str) : Str := port.elim [] (':' :: ·)

def Url.text (u : Url) : Str :=
  u.scheme ++ ("://".toList ++ (u.host ++ (portText u.port ++ u.path)))

/-- The URL names the default port of its scheme. -/
def Url.NamesDefaultPort (u : Url) : Prop :=
  (toLower u.scheme = "http".toList ∧ u.port = some "80".toList) ∨
    (toLower u.scheme = "https".toList ∧ u.port = some "443".toList)

instance (u : Url) : Decidable u.NamesDefaultPort := by
  unfold Url.NamesDefaultPort
  infer_instance

/-- The port that is left in the normal form. -/
def Url.keptPort (u : Url) : Option Str := if u.NamesDefaultPort then none else u.port

/-! ## The text of a URL, and what trimming leaves of it -/

theorem Url.decimal (u : Url) {port : Str} (h : u.port = some port) : isDecimal port = true := by
  have hport := u.port_decimal
  rwa [h, Option.all_some] at hport

/-- Blanks behind a URL are trimmed; in front of it there are none. -/
theorem Url.trim_append (u : Url) {body t : Str} (ht : Blank t) (hne : body ≠ [])
    (hlast : ∀ c, body.getLast? = some c → isSpace c = false) :
    trim (u.scheme ++ ("://".toList ++ (body ++ t))) = u.scheme ++ ("://".toList ++ body) := by
  have htrimmed : Trimmed (u.scheme ++ ("://".toList ++ body)) := by
    constructor
    · intro c hc
      cases hscheme : u.scheme with
      | nil =>
        rw [hscheme] at hc
        cases hc
        rfl
      | cons d scheme =>
        rw [hscheme] at hc
        cases hc
        exact (u.scheme_plain c (by simp [hscheme])).2
    · intro c hc
      rw [List.getLast?_append_of_ne_nil _ (by simp), List.getLast?_append_of_ne_nil _ hne] at hc
      exact hlast c hc
  have htrim := trim_blank_append (fun _ hc => absurd hc List.not_mem_nil) htrimmed ht (by simp)
    (s := [])
  simpa only [List.nil_append, List.append_assoc] using htrim

/-- The line of the URL without white space at its end, cut into its parts. -/
structure Url.TrimsTo (u : Url) (host path : Str) : Prop where
  text : trim u.text = u.scheme ++ ("://".toList ++ (host ++ (portText u.port ++ path)))
  normal : normalizeDomain host = normalizeDomain u.host
  chars : ∀ c ∈ host, c ∈ u.host
  start : path = [] ∨ path.head? = some '/'

/-- The host is the last part: its last dots stay, what is behind them goes. -/
theorem Url.trim_host (u : Url) (hpath : u.path = []) (hport : u.port = none) :
    ∃ host, u.TrimsTo host [] := by
  obtain ⟨s, m, dots, t, hs, ht, hdots, hne, hm, hlast, heq, hnormal⟩ :=
    exists_core (canonical_of_isValidDomain u.host_valid)
  have hend : ∀ c, (s ++ (m ++ dots)).getLast? = some c → isSpace c = false := by
    intro c hc
    by_cases hnil : dots = []
    · rw [hnil, List.append_nil, List.getLast?_append_of_ne_nil _ hne] at hc
      exact hm.2 c hc
    · rw [List.getLast?_append_of_ne_nil _ (by simp [hne]),
        List.getLast?_append_of_ne_nil _ hnil] at hc
      rw [hdots c (List.mem_of_getLast? hc)]
      rfl
  refine ⟨s ++ (m ++ dots), ?_, ?_, ?_, Or.inl rfl⟩
  · rw [Url.text, hpath, hport, heq]
    simp only [portText, Option.elim_none, List.append_nil]
    exact u.trim_append ht (by simp [hne]) hend
  · have hsame := normalizeDomain_append hs (fun _ hc => absurd hc List.not_mem_nil) hdots hne hm
      hlast (t := [])
    rw [List.append_nil] at hsame
    rw [hsame, hnormal]
  · intro c hc
    rw [heq]
    exact List.mem_append_left _ hc

/-- The port is the last part. -/
theorem Url.trim_port (u : Url) (hpath : u.path = []) {port : Str} (hport : u.port = some port) :
    u.TrimsTo u.host [] := by
  have hdecimal := u.decimal hport
  have hne : port ≠ [] := by
    rintro rfl
    cases hdecimal
  have hlast : ∀ c, (u.host ++ ':' :: port).getLast? = some c → isSpace c = false := by
    intro c hc
    rw [List.getLast?_append_of_ne_nil _ (by simp), List.getLast?_cons_of_ne_nil hne] at hc
    exact noSpace_decimal hdecimal c (List.mem_of_getLast? hc)
  have htrim := u.trim_append (fun _ hc => absurd hc List.not_mem_nil) (by simp) hlast (t := [])
  refine ⟨?_, rfl, fun _ hc => hc, Or.inl rfl⟩
  rw [Url.text, hpath, hport]
  simpa only [portText, Option.elim_some, List.append_nil] using htrim

/-- The path is the last part, and its first character stays. -/
theorem Url.trim_path (u : Url) (hslash : u.path.head? = some '/') :
    u.TrimsTo u.host (trim u.path) := by
  obtain ⟨s, t, hs, ht, heq⟩ := exists_blank_trim u.path
  have hsnil : s = [] := by
    cases s with
    | nil => rfl
    | cons c s =>
      rw [heq] at hslash
      cases hslash
      exact absurd (hs '/' (by simp)) (by decide)
  rw [hsnil, List.nil_append] at heq
  have hne : trim u.path ≠ [] := by
    intro hnil
    rw [hnil, List.nil_append] at heq
    rw [heq] at hslash
    exact absurd (ht '/' (List.mem_of_head? hslash)) (by decide)
  refine ⟨?_, rfl, fun _ hc => hc, Or.inr ?_⟩
  · have hbody : u.host ++ (portText u.port ++ trim u.path) ≠ [] := by simp [hne]
    have htrim := u.trim_append ht hbody fun c hc => by
      rw [List.getLast?_append_of_ne_nil _ (by simp [hne]), List.getLast?_append_of_ne_nil _ hne]
        at hc
      exact (trimmed_trim _).2 c hc
    rw [Url.text]
    conv_lhs => rw [heq]
    simpa only [List.append_assoc] using htrim
  · rw [heq, List.head?_append_of_ne_nil _ hne] at hslash
    exact hslash

theorem Url.trim_text (u : Url) : ∃ host path, u.TrimsTo host path := by
  by_cases hpath : u.path = []
  · cases hport : u.port with
    | none =>
      obtain ⟨host, htrims⟩ := u.trim_host hpath hport
      exact ⟨host, [], htrims⟩
    | some port => exact ⟨u.host, [], u.trim_port hpath hport⟩
  · exact ⟨u.host, trim u.path, u.trim_path (u.path_start.resolve_left hpath)⟩

/-! ## The cuts of `normalize_url` -/

def cutScheme (v : Str) : Str × Str :=
  match findStr "://".toList v with
  | some pos => (toLower (v.take pos), substr (pos + 3) v)
  | none => ("http".toList, v)

def cutPath (v : Str) : Str × Str :=
  match find '/' v with
  | some slash => (v.take slash, substr slash v)
  | none => (v, "/".toList)

def cutUser (host : Str) : Str :=
  match rfind '@' host with
  | some pos => substr (pos + 1) host
  | none => host

def cutPort (host : Str) : Str × Str :=
  match rfind ':' host with
  | some colon =>
    if (find ']' host).isNone then (host.take colon, substr (colon + 1) host) else (host, [])
  | none => (host, [])

/-- The empty text stands for no port. -/
def portOrEmpty (scheme port : Str) : Str :=
  if (scheme = "http".toList ∧ port = "80".toList) ∨
      (scheme = "https".toList ∧ port = "443".toList) then [] else port

/-- The normal form of a URL whose parts have been cut apart. -/
def joinUrl (scheme host port path : Str) : Str :=
  scheme ++ "://".toList ++ normalizeDomain host ++
    (if (portOrEmpty scheme port).isEmpty then [] else ':' :: portOrEmpty scheme port) ++
    collapseSlashes path

theorem normalizeUrl_eq (url : Str) :
    normalizeUrl url =
      joinUrl (cutScheme (trim url)).1 (cutPort (cutUser (cutPath (cutScheme (trim url)).2).1)).1
        (cutPort (cutUser (cutPath (cutScheme (trim url)).2).1)).2
        (cutPath (cutScheme (trim url)).2).2 := rfl

/-- A path keeps its first slash. -/
theorem head?_replaceSlashes {path : Str} (h : path.head? = some '/') :
    (replaceSlashes false path).head? = some '/' := by
  cases path with
  | nil => cases h
  | cons c rest =>
    cases h
    rw [replaceSlashes, if_pos rfl, if_neg (by simp)]
    rfl

theorem head?_collapseSlashes {path : Str} (h : path.head? = some '/') :
    (collapseSlashes path).head? = some '/' := by
  fun_induction collapseSlashes path with
  | case1 path hdouble ih => exact ih (head?_replaceSlashes h)
  | case2 path hsingle => exact h

/-- A valid host holds no delimiter of a URL. -/
theorem not_mem_host {host : Str} (h : ∀ c ∈ host, HostChar c) :
    ':' ∉ host ∧ '/' ∉ host ∧ '@' ∉ host ∧ ']' ∉ host :=
  ⟨fun hc => absurd (h _ hc) (by decide), fun hc => absurd (h _ hc) (by decide),
    fun hc => absurd (h _ hc) (by decide), fun hc => absurd (h _ hc) (by decide)⟩

theorem digits_of_decimal {port : Option Str} (h : port.all isDecimal = true) :
    ∀ c ∈ port.getD [], isDigit c = true := by
  cases port with
  | none => exact fun c hc => absurd hc List.not_mem_nil
  | some port =>
    rw [Option.all_some] at h
    exact fun c hc => isDigit_of_mem_decimal h hc

theorem not_mem_portText {port : Option Str} (h : ∀ c ∈ port.getD [], isDigit c = true) :
    '/' ∉ portText port ∧ '@' ∉ portText port ∧ ']' ∉ portText port := by
  have hnone : ∀ c : Char, c ≠ ':' → isDigit c = false → c ∉ portText port := by
    intro c hcolon hdigit
    cases port with
    | none => exact List.not_mem_nil
    | some port =>
      show c ∉ ':' :: port
      rw [List.mem_cons, not_or]
      refine ⟨hcolon, fun hc => ?_⟩
      rw [h c hc] at hdigit
      cases hdigit
  exact ⟨hnone _ (by decide) (by decide), hnone _ (by decide) (by decide),
    hnone _ (by decide) (by decide)⟩

theorem scheme_not_infix {scheme : Str} (h : ':' ∉ scheme) : ¬ "://".toList <:+: scheme :=
  fun hin => h (hin.subset (by simp))

/-- The first `://` is the one behind the scheme, also when the scheme ends like the
start of one. -/
theorem findStr_scheme {scheme : Str} (h : ¬ "://".toList <:+: scheme) (rest : Str) :
    findStr "://".toList (scheme ++ ("://".toList ++ rest)) = some scheme.length := by
  induction scheme with
  | nil => simp [findStr]
  | cons c scheme ih =>
    have htail : ¬ "://".toList <:+: scheme := fun hin =>
      h (hin.trans (List.suffix_cons c scheme).isInfix)
    have hhead : "://".toList.isPrefixOf (c :: (scheme ++ ("://".toList ++ rest))) = false := by
      rw [Bool.eq_false_iff, ne_eq, List.isPrefixOf_iff_prefix]
      intro hprefix
      rcases scheme with _ | ⟨d, _ | ⟨e, scheme⟩⟩
      · simp at hprefix
      · simp at hprefix
      · -- all three characters are in the scheme
        obtain ⟨tail, heq⟩ := hprefix
        cases heq
        exact h (List.prefix_append "://".toList scheme).isInfix
    rw [List.cons_append, findStr, if_neg (by rw [hhead]; exact Bool.false_ne_true), ih htail]
    rfl

theorem substr_scheme (scheme rest : Str) :
    substr (scheme.length + 3) (scheme ++ ("://".toList ++ rest)) = rest := by
  rw [substr, ← List.append_assoc]
  exact List.drop_left' (by simp)

theorem cutScheme_append {scheme : Str} (h : ¬ "://".toList <:+: scheme) (rest : Str) :
    cutScheme (scheme ++ ("://".toList ++ rest)) = (toLower scheme, rest) := by
  rw [cutScheme, findStr_scheme h]
  simp only [substr_scheme, List.take_left]

theorem cutPath_append {a path : Str} (ha : '/' ∉ a) (hpath : path = [] ∨ path.head? = some '/') :
    cutPath (a ++ path) = (a, if path = [] then "/".toList else path) := by
  unfold cutPath
  rcases hpath with rfl | hpath
  · rw [List.append_nil, find_eq_none ha]
    rfl
  · obtain ⟨rest, rfl⟩ : ∃ rest, path = '/' :: rest := by
      cases path with
      | nil => cases hpath
      | cons c rest =>
        cases hpath
        exact ⟨rest, rfl⟩
    rw [find_append_cons ha]
    simp [substr]

theorem cutUser_eq_self {host : Str} (h : '@' ∉ host) : cutUser host = host := by
  rw [cutUser, rfind_eq_none h]

theorem cutPort_append {host : Str} {port : Option Str} (hcolon : ':' ∉ host)
    (hbracket : ']' ∉ host)
    (hport : ∀ c ∈ port.getD [], isDigit c = true) :
    cutPort (host ++ portText port) = (host, port.getD []) := by
  have hnone : ']' ∉ host ++ portText port := by simp [hbracket, (not_mem_portText hport).2.2]
  unfold cutPort
  rw [find_eq_none hnone]
  cases port with
  | none => simp [portText, rfind_eq_none hcolon]
  | some port =>
    have hport' : ':' ∉ port := fun hc => absurd (hport ':' hc) (by decide)
    rw [portText, Option.elim_some, rfind_append_cons hport' host]
    simp [substr]

theorem Url.portText_keptPort (u : Url) :
    portText u.keptPort =
      if (portOrEmpty (toLower u.scheme) (u.port.getD [])).isEmpty then []
      else ':' :: portOrEmpty (toLower u.scheme) (u.port.getD []) := by
  have hempty : ∀ text : Str, text ≠ [] → (u.port.getD [] = text ↔ u.port = some text) := by
    intro text hne
    cases u.port with
    | none => simpa using hne.symm
    | some port => simp
  have hkeep : portOrEmpty (toLower u.scheme) (u.port.getD []) =
      if u.NamesDefaultPort then [] else u.port.getD [] := by
    simp only [portOrEmpty, Url.NamesDefaultPort, hempty "80".toList (by decide),
      hempty "443".toList (by decide)]
  rw [hkeep]
  unfold Url.keptPort
  by_cases hdefault : u.NamesDefaultPort
  · simp [if_pos hdefault, portText]
  · rw [if_neg hdefault, if_neg hdefault]
    cases hport : u.port with
    | none => rfl
    | some port =>
      have hne : port ≠ [] := by
        rintro rfl
        cases u.decimal hport
      rw [Option.getD_some, List.isEmpty_eq_false_iff.mpr hne]
      rfl

/-- **The normal form of a URL**: the scheme in lower case, the normal form of
the host, a port unless it is the default one, and a path. -/
theorem Url.normalizeUrl_text (u : Url) : ∃ path, path.head? = some '/' ∧
    normalizeUrl u.text =
      toLower u.scheme ++ ("://".toList ++
        (normalizeDomain u.host ++ (portText u.keptPort ++ path))) := by
  obtain ⟨host, path, ⟨htrim, hnormal, hsub, hpath⟩⟩ := u.trim_text
  obtain ⟨hcolon, hslash, hat, hbracket⟩ :=
    not_mem_host fun c hc => hostChar_of_isValidDomain u.host_valid (hsub c hc)
  have hdigits := digits_of_decimal u.port_decimal
  obtain ⟨hslash', hat', -⟩ := not_mem_portText hdigits
  have hscheme := scheme_not_infix fun hc => (u.scheme_plain _ hc).1 rfl
  have hnoSlash : '/' ∉ host ++ portText u.port := by simp [hslash, hslash']
  have hnoUser : '@' ∉ host ++ portText u.port := by simp [hat, hat']
  have hpath' : (if path = [] then "/".toList else path).head? = some '/' := by
    rcases hpath with rfl | hpath
    · rfl
    · rw [if_neg (by rintro rfl; cases hpath)]
      exact hpath
  refine ⟨_, head?_collapseSlashes hpath', ?_⟩
  rw [normalizeUrl_eq, htrim, cutScheme_append hscheme, ← List.append_assoc host,
    cutPath_append hnoSlash hpath, cutUser_eq_self hnoUser, cutPort_append hcolon hbracket hdigits,
    joinUrl, hnormal, u.portText_keptPort]
  simp only [List.append_assoc]

theorem Url.keptPort_decimal (u : Url) : u.keptPort.all isDecimal = true := by
  unfold Url.keptPort
  split
  · rfl
  · exact u.port_decimal

theorem hostChar_of_mem_normalizeDomain {host : Str} (h : isValidDomain host = true) :
    ∀ c ∈ normalizeDomain host, HostChar c := by
  intro c hc
  rcases mem_normalizeDomain h hc with halnum | rfl | rfl
  · exact Or.inr (Or.inl halnum)
  · exact Or.inr (Or.inr (by simp))
  · exact Or.inr (Or.inr (by simp))

/-- Lower-casing makes letters only. -/
theorem not_mem_toLower {value : Str} {c : Char} (hc : c.isAlpha = false) (h : c ∉ value) :
    c ∉ toLower value := by
  intro hmem
  obtain ⟨d, hd, hlower⟩ := List.mem_map.mp hmem
  by_cases hu : d.isUpper
  · have halpha : d.toLower.isAlpha = true := by simp [Char.isAlpha, hu]
    rw [hlower, hc] at halpha
    cases halpha
  · rw [Char.toLower_eq_of_not_isUpper hu] at hlower
    exact h (hlower ▸ hd)

/-- **What the matchers take for the host**: the host, with the port that is kept. -/
theorem Url.urlHost_normalizeUrl (u : Url) :
    urlHost (normalizeUrl u.text) = normalizeDomain u.host ++ portText u.keptPort := by
  obtain ⟨path, hpath, hnormal⟩ := u.normalizeUrl_text
  have hscheme := scheme_not_infix (not_mem_toLower rfl fun hc => (u.scheme_plain _ hc).1 rfl)
  have hslash : '/' ∉ normalizeDomain u.host ++ portText u.keptPort := by
    have hhost := (not_mem_host (hostChar_of_mem_normalizeDomain u.host_valid)).2.1
    simp [hhost, (not_mem_portText (digits_of_decimal u.keptPort_decimal)).1]
  obtain ⟨rest, rfl⟩ : ∃ rest, path = '/' :: rest := by
    cases path with
    | nil => cases hpath
    | cons c rest =>
      cases hpath
      exact ⟨rest, rfl⟩
  rw [hnormal, urlHost, findStr_scheme hscheme]
  simp only [substr_scheme]
  rw [← List.append_assoc, find_append_cons hslash]
  simp only [List.take_left]

end PacketGuard.Ioc
