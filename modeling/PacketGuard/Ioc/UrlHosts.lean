import PacketGuard.Ioc.Refinement
import PacketGuard.Ioc.UrlForm

/-! # The host of a URL indicator

`normalize_url` keeps a port other than the default one of the scheme, and the
matchers take everything between `://` and the first slash for the host.  So a
URL indicator is found for its host, and for the names below it, exactly where
no port is left in its normal form.
-/
namespace PacketGuard.Ioc
open PacketGuard.Core PacketGuard.Packet PacketGuard.Lib

/-! ## The names a URL is about -/

/-- The name is the host of the URL or a name below it, up to case and trailing
dots. -/
def Url.Covers (u : Url) (name : Str) : Prop :=
  ∃ sub core dots, name = sub ++ (core ++ dots) ∧ toLower core = normalizeDomain u.host ∧
    (sub = [] ∨ sub.getLast? = some '.') ∧ ∀ c ∈ dots, c = '.'

theorem Url.canonical (u : Url) : Canonical (normalizeDomain u.host) :=
  canonical_of_isValidDomain u.host_valid

theorem Url.covers_of_below {u : Url} {name : Str} (h : Below (normalizeDomain u.host) name) :
    u.Covers name := by
  have hlower : toLower (normalizeDomain u.host) = normalizeDomain u.host := u.canonical.lower
  rcases h with rfl | ⟨sub, rfl⟩
  · exact ⟨[], _, [], by simp, hlower, Or.inl rfl, by simp⟩
  · exact ⟨sub ++ ['.'], _, [], by simp, hlower, Or.inr (by simp), by simp⟩

/-- Blanks in front of labels are no part of them. -/
theorem exists_blank_labels {sub : Str} (h : sub = [] ∨ sub.getLast? = some '.') :
    ∃ s labels, sub = s ++ labels ∧ Blank s ∧ (∀ c, labels.head? = some c → isSpace c = false) ∧
      (labels = [] ∨ labels.getLast? = some '.') := by
  refine ⟨sub.takeWhile isSpace, sub.dropWhile isSpace, List.takeWhile_append_dropWhile.symm,
    fun c hc => List.mem_takeWhile_imp hc, ?_, ?_⟩
  · intro c hc
    have hnot := List.head?_dropWhile_not isSpace sub
    rw [hc] at hnot
    simpa using hnot
  · by_cases hnil : sub.dropWhile isSpace = []
    · exact Or.inl hnil
    · refine Or.inr ?_
      have hsub := h.resolve_left fun hsub => hnil (by rw [hsub]; rfl)
      rw [← List.takeWhile_append_dropWhile (p := isSpace) (l := sub),
        List.getLast?_append_of_ne_nil _ hnil] at hsub
      exact hsub

/-- The matchers see such a name at or below the normal form of the host. -/
theorem Url.Covers.below {u : Url} {name : Str} (h : u.Covers name) :
    Below (normalizeDomain u.host) (normalizeDomain name) := by
  obtain ⟨sub, core, dots, rfl, hcore, hsub, hdots⟩ := h
  obtain ⟨s, labels, rfl, hs, hhead, hlabels⟩ := exists_blank_labels hsub
  have hcanonical := u.canonical
  have hne : core ≠ [] := by
    rintro rfl
    exact hcanonical.nonempty hcore.symm
  have hspace : NoSpace core := by
    intro c hc
    rw [← isSpace_toLower]
    exact hcanonical.noSpace _ (hcore ▸ List.mem_map_of_mem hc)
  have htrimmed : Trimmed (labels ++ core) := by
    constructor
    · intro c hc
      by_cases hnil : labels = []
      · rw [hnil, List.nil_append] at hc
        exact hspace c (List.mem_of_head? hc)
      · rw [List.head?_append_of_ne_nil _ hnil] at hc
        exact hhead c hc
    · intro c hc
      rw [List.getLast?_append_of_ne_nil _ hne] at hc
      exact hspace c (List.mem_of_getLast? hc)
  have hlast : (labels ++ core).getLast? ≠ some '.' := by
    rw [List.getLast?_append_of_ne_nil _ hne]
    intro hdot
    refine hcanonical.noDotEnd ?_
    rw [← hcore, toLower, List.getLast?_map, hdot]
    rfl
  have hnormal := normalizeDomain_append hs (fun _ hc => absurd hc List.not_mem_nil) hdots
    (by simp [hne]) htrimmed hlast (t := [])
  have hname : s ++ labels ++ (core ++ dots) = s ++ (labels ++ core ++ dots) ++ [] := by simp
  rw [hname, hnormal, toLower_append, hcore]
  obtain ⟨q, hq, hwild⟩ := exists_wildcard (toLower labels ++ normalizeDomain u.host)
  refine (below_append hq hcanonical).mp ?_
  rw [← hwild]
  rcases hlabels with rfl | hdot
  · exact Or.inl rfl
  · obtain ⟨rest, rfl⟩ := List.getLast?_eq_some_iff.mp hdot
    exact Or.inr ⟨toLower rest, by simp [toLower]⟩

/-- What the matchers take for the host of a URL with a port is no name above
any that the URL covers. -/
theorem not_below_portText {host obs port : Str} (hhost : ∀ c ∈ host, HostChar c)
    (hdot : '.' ∈ host)
    (hport : isDecimal port = true) (h : Below host obs) : ¬ Below (host ++ ':' :: port) obs := by
  intro hwith
  have hsuffix : ∀ {name : Str}, Below name obs → name <:+ obs := by
    rintro name (rfl | hsub)
    · exact List.suffix_rfl
    · exact (List.suffix_cons '.' name).trans hsub
  have hin : host <:+ host ++ ':' :: port :=
    List.suffix_of_suffix_length_le (hsuffix h) (hsuffix hwith) (by simp)
  rcases List.suffix_or_suffix_of_suffix hin (List.suffix_append host (':' :: port)) with hin | hin
  · -- the dot of the host would be a digit of the port
    have hmem := hin.subset hdot
    rw [List.mem_cons] at hmem
    rcases hmem with hcolon | hdigit
    · cases hcolon
    · exact not_mem_decimal hport rfl hdigit
  · exact (not_mem_host hhost).1 (hin.subset (by simp))

theorem dot_mem_normalizeDomain {host : Str} (h : isValidDomain host = true) :
    '.' ∈ normalizeDomain host := by
  by_contra hdot
  unfold isValidDomain at h
  simp [find_eq_none hdot] at h

/-- A name with a port behind it is canonical as well. -/
theorem canonical_portText {host port : Str} (h : Canonical host) (hport : isDecimal port = true) :
    Canonical (host ++ ':' :: port) := by
  have hdigits : ∀ c ∈ port, isDigit c = true := fun c hc => isDigit_of_mem_decimal hport hc
  have hne : port ≠ [] := by
    rintro rfl
    cases hport
  have hhead : (host ++ ':' :: port).head? = host.head? := List.head?_append_of_ne_nil _ h.nonempty
  refine ⟨by simp, h.noSpace.append ?_, ?_, hhead ▸ h.noDot, hhead ▸ h.noStar, ?_⟩
  · intro c hc
    rcases List.mem_cons.mp hc with rfl | hc
    · rfl
    · exact isSpace_of_isDigit (hdigits c hc)
  · have hlower : toLower port = port :=
      (List.map_congr_left fun c hc => toLower_of_isDigit (hdigits c hc)).trans (List.map_id _)
    rw [toLower_append, h.lower]
    exact congrArg (fun p => host ++ ':' :: p) hlower
  · rw [List.getLast?_append_of_ne_nil _ (by simp), List.getLast?_cons_of_ne_nil hne]
    intro hdot
    exact not_mem_decimal hport rfl (List.mem_of_getLast? hdot)

/-- The host of a normal form is canonical, with a port behind it or not. -/
theorem Url.canonical_urlHost (u : Url) : Canonical (urlHost (normalizeUrl u.text)) := by
  rw [u.urlHost_normalizeUrl]
  cases hport : u.keptPort with
  | none =>
    rw [portText, Option.elim_none, List.append_nil]
    exact u.canonical
  | some port =>
    have hdecimal := u.keptPort_decimal
    rw [hport, Option.all_some] at hdecimal
    exact canonical_portText u.canonical hdecimal

/-! ## Reports -/

/-- **A URL is matched with the names it covers exactly where no port is kept.** -/
theorem Url.domainMatches_iff (u : Url) {name : Str} (h : u.Covers name) :
    domainMatches (urlHost (normalizeUrl u.text)) name = true ↔ u.keptPort = none := by
  have hwith := u.canonical_urlHost
  rw [Ioc.domainMatches_iff (by rwa [hwith.normalizeDomain_eq]), hwith.normalizeDomain_eq,
    u.urlHost_normalizeUrl]
  cases hport : u.keptPort with
  | none =>
    rw [portText, Option.elim_none, List.append_nil]
    exact iff_of_true h.below rfl
  | some port =>
    have hdecimal := u.keptPort_decimal
    rw [hport, Option.all_some] at hdecimal
    refine iff_of_false ?_ (Option.some_ne_none _)
    exact not_below_portText (hostChar_of_mem_normalizeDomain u.host_valid)
      (dot_mem_normalizeDomain u.host_valid) hdecimal h.below

/-- Some match reports the indicator for the field and value. -/
def Reported (out : List MatchResult) (ind : Indicator) (field value : Str) : Prop :=
  ∃ m ∈ out, m.indicator = ind ∧ m.field = field ∧ m.value = value

/-- The linear matcher finds the indicator for the name. -/
def concernsName (name : Str) (ind : Indicator) : Prop :=
  (ind.type = .domain ∧ domainMatches ind.normalized name = true) ∨
    (ind.type = .url ∧ domainMatches (urlHost ind.normalized) name = true)

theorem mem_nameMatches {set : IndicatorSet} {name : Str} {m : MatchResult} :
    m ∈ nameMatches set name ↔ ∃ ind ∈ set.indicators,
      ((ind.type = .domain ∧ domainMatches ind.normalized name) ∧
        m = ⟨ind, nameField, normalizeDomain name, "domain suffix match".toList⟩) ∨
      ((ind.type = .url ∧ domainMatches (urlHost ind.normalized) name) ∧
        m = ⟨ind, nameField, normalizeDomain name, "URL host match".toList⟩) := by
  simp only [nameMatches, List.mem_flatMap, List.mem_append, List.mem_ite_nil_right,
    List.mem_singleton]

theorem concerned_of_mem_nameMatches {set : IndicatorSet} {name : Str} {m : MatchResult}
    (h : m ∈ nameMatches set name) :
    m.indicator ∈ set.indicators ∧ concernsName name m.indicator ∧
      m.value = normalizeDomain name := by
  obtain ⟨ind, hind, ⟨hcond, rfl⟩ | ⟨hcond, rfl⟩⟩ := mem_nameMatches.mp h
  · exact ⟨hind, Or.inl hcond, rfl⟩
  · exact ⟨hind, Or.inr hcond, rfl⟩

theorem reported_nameMatches {set : IndicatorSet} {name : Str} {ind : Indicator}
    (hind : ind ∈ set.indicators) (h : concernsName name ind) :
    Reported (nameMatches set name) ind nameField (normalizeDomain name) := by
  rcases h with h | h
  · exact ⟨_, mem_nameMatches.mpr ⟨ind, hind, Or.inl ⟨h, rfl⟩⟩, rfl, rfl, rfl⟩
  · exact ⟨_, mem_nameMatches.mpr ⟨ind, hind, Or.inr ⟨h, rfl⟩⟩, rfl, rfl, rfl⟩

/-- Names are matched by their normal forms. -/
theorem concernsName_congr {name name' : Str} (h : normalizeDomain name = normalizeDomain name')
    (ind : Indicator) : concernsName name ind ↔ concernsName name' ind := by
  unfold concernsName domainMatches
  rw [h]

theorem field_of_mem_ipMatches {set : IndicatorSet} {ip : IPv4Address} {field : Str}
    {m : MatchResult} (h : m ∈ ipMatches set ip field) : m.field = field := by
  simp only [ipMatches, List.mem_flatMap, List.mem_append, List.mem_ite_nil_right,
    List.mem_singleton] at h
  obtain ⟨ind, -, ⟨-, rfl⟩ | ⟨-, rfl⟩⟩ := h <;> rfl

/-- What `match_packet` collects before it suppresses anything. -/
def collected (set : IndicatorSet) (md : PacketMetadata) : List MatchResult :=
  (match md.ipv4 with
    | some ip => ipMatches set ip.source sourceField ++ ipMatches set ip.destination
      destinationField
    | none => []) ++
  md.domainNames.flatMap (nameMatches set)

/-- The matches with a name are those of the indicators about it. -/
theorem reported_collected {set : IndicatorSet} {md : PacketMetadata} {name : Str}
    {m : MatchResult} (h : m ∈ collected set md) (hfield : m.field = nameField)
    (hvalue : m.value = normalizeDomain name) :
    m.indicator ∈ set.indicators ∧ concernsName name m.indicator := by
  rw [collected, List.mem_append] at h
  rcases h with h | h
  · -- address matches report other fields
    cases hip : md.ipv4 with
    | none =>
      rw [hip] at h
      cases h
    | some ip =>
      rw [hip, List.mem_append] at h
      rcases h with h | h
      · exact absurd ((field_of_mem_ipMatches h).symm.trans hfield) (by decide)
      · exact absurd ((field_of_mem_ipMatches h).symm.trans hfield) (by decide)
  · obtain ⟨name', -, h⟩ := List.mem_flatMap.mp h
    obtain ⟨hind, hconcerns, hvalue'⟩ := concerned_of_mem_nameMatches h
    exact ⟨hind, (concernsName_congr (hvalue'.symm.trans hvalue) _).mp hconcerns⟩

theorem reported_collected_of_concerns {set : IndicatorSet} {md : PacketMetadata} {name : Str}
    (hname : name ∈ md.domainNames) {ind : Indicator} (hind : ind ∈ set.indicators)
    (h : concernsName name ind) :
    Reported (collected set md) ind nameField (normalizeDomain name) := by
  obtain ⟨m, hm, hreport⟩ := reported_nameMatches hind h
  exact ⟨m, List.mem_append_right _ (List.mem_flatMap.mpr ⟨name, hname, hm⟩), hreport⟩

/-- **What the linear matcher reports for a name**: the indicators about it,
unless an allow indicator is about it as well. -/
theorem reported_matchPacket_iff {set : IndicatorSet} {md : PacketMetadata} {name : Str}
    (hname : name ∈ md.domainNames) {ind : Indicator} (hind : ind ∈ set.indicators) :
    Reported (matchPacket set md) ind nameField (normalizeDomain name) ↔
      concernsName name ind ∧
        (ind.role = .allow ∨ ∀ a ∈ set.indicators, a.role = .allow → ¬ concernsName name a) := by
  have hpacket : matchPacket set md = suppressAllowed (collected set md) := rfl
  -- a match with the name is allowed exactly where an allow indicator is about the name
  have hallowed : ∀ m : MatchResult, m.field = nameField → m.value = normalizeDomain name →
      (allowed (collected set md) m = true ↔
        ∃ a ∈ set.indicators, a.role = .allow ∧ concernsName name a) := by
    intro m hfield hvalue
    simp only [allowed, List.any_eq_true, Bool.and_eq_true, decide_eq_true_eq, beq_iff_eq, hfield,
      hvalue]
    constructor
    · rintro ⟨m', hm', ⟨hrole, hfield'⟩, hvalue'⟩
      obtain ⟨hmem, hconcerns⟩ := reported_collected hm' hfield' hvalue'
      exact ⟨_, hmem, hrole, hconcerns⟩
    · rintro ⟨a, ha, hrole, hconcerns⟩
      obtain ⟨m', hm', rfl, hfield', hvalue'⟩ := reported_collected_of_concerns hname ha hconcerns
      exact ⟨m', hm', ⟨hrole, hfield'⟩, hvalue'⟩
  rw [hpacket]
  constructor
  · rintro ⟨m, hm, rfl, hfield, hvalue⟩
    obtain ⟨hm, hkept⟩ := List.mem_filter.mp hm
    refine ⟨(reported_collected hm hfield hvalue).2, ?_⟩
    by_cases hrole : m.indicator.role = .allow
    · exact Or.inl hrole
    · refine Or.inr fun a ha hallow hconcerns => ?_
      rw [(hallowed m hfield hvalue).mpr ⟨a, ha, hallow, hconcerns⟩] at hkept
      simp [hrole] at hkept
  · rintro ⟨hconcerns, hrole⟩
    obtain ⟨m, hm, rfl, hfield, hvalue⟩ := reported_collected_of_concerns hname hind hconcerns
    refine ⟨m, List.mem_filter.mpr ⟨hm, ?_⟩, rfl, hfield, hvalue⟩
    rw [Bool.or_eq_true, Bool.not_eq_true', decide_eq_true_eq]
    refine hrole.symm.imp_left fun hnone => ?_
    rw [Bool.eq_false_iff, ne_eq, hallowed m hfield hvalue]
    rintro ⟨a, ha, hallow, hconcerns'⟩
    exact hnone a ha hallow hconcerns'

/-- **What the index reports for a name**: the active indicators filed under a
name that matches. -/
theorem reported_lookupDomain_iff {idx : IndicatorIndex} (h : Synced idx) (name field : Str)
    (ind : Indicator) :
    Reported (IndicatorIndex.lookupDomain idx name field) ind field (normalizeDomain name) ↔
      ind ∈ activeIndicators idx.records ∧
        (nameKey ind).any (fun key => domainMatches key (normalizeDomain name)) = true := by
  have hmem : ind ∈ nameLookup (activeIndicators idx.records) (normalizeDomain name) ↔ _ :=
    (perm_nameLookup_filter _ _).mem_iff.trans List.mem_filter
  rw [← hmem, lookupDomain_eq h]
  constructor
  · rintro ⟨m, hm, rfl, -, -⟩
    obtain ⟨ind', hind', rfl⟩ := List.mem_map.mp hm
    exact hind'
  · exact fun hind => ⟨_, List.mem_map.mpr ⟨ind, hind, rfl⟩, rfl, rfl, rfl⟩

section Indicator
variable (u : Url) {ind : Indicator} (htype : ind.type = .url)
  (hnormal : ind.normalized = normalizeUrl u.text) {name : Str} (hcovers : u.Covers name)
include htype hnormal hcovers

theorem Url.concernsName_iff : concernsName name ind ↔ u.keptPort = none := by
  rw [← u.domainMatches_iff hcovers, ← hnormal]
  simp [concernsName, htype]

/-- The index matches the normal form of the name, which the URL covers as well. -/
theorem Url.filed_iff :
    (nameKey ind).any (fun key => domainMatches key (normalizeDomain name)) = true ↔
      u.keptPort = none := by
  have hkey : nameKey ind = some (urlHost (normalizeUrl u.text)) := by
    simp only [nameKey, htype, indexedDomain, hnormal, if_true,
      u.canonical_urlHost.normalizeDomain_eq]
  rw [hkey, Option.any_some, u.domainMatches_iff (covers_of_below hcovers.below)]

/-- **A URL indicator is reported for the names its URL covers exactly where its
normal form keeps no port**, by the linear matcher and by the index.  The linear
matcher alone also looks at the allow indicators of its set. -/
theorem Url.reported_iff {set : IndicatorSet} (hset : ind ∈ set.indicators) {md : PacketMetadata}
    (hname : name ∈ md.domainNames) {ops : List IndexOp}
    (hactive : ind ∈ activeIndicators (indexMachine.run ops).records) (field : Str) :
    (Reported (matchPacket set md) ind nameField (normalizeDomain name) ∧
        Reported (IndicatorIndex.lookupDomain (indexMachine.run ops) name field) ind field
          (normalizeDomain name)) ↔
      u.keptPort = none ∧
        (ind.role = .allow ∨ ∀ a ∈ set.indicators, a.role = .allow → ¬ concernsName name a) := by
  rw [reported_matchPacket_iff hname hset, reported_lookupDomain_iff (synced_run ops),
    u.concernsName_iff htype hnormal hcovers, u.filed_iff htype hnormal hcovers]
  constructor
  · rintro ⟨⟨hkept, hrole⟩, -⟩
    exact ⟨hkept, hrole⟩
  · rintro ⟨hkept, hrole⟩
    exact ⟨⟨hkept, hrole⟩, hactive, hkept⟩

end Indicator

open IndicatorIndex in
/-- An indicator that has a normal form is added as it is. -/
theorem mem_activeIndicators_add {ind : Indicator} (h : ind.normalized ≠ []) :
    ind ∈ activeIndicators (indexMachine.run [.add ind]).records := by
  have hcomplete : completeNormalized ind = ind :=
    if_neg (by rw [List.isEmpty_iff]; exact h)
  have hrecords : (indexMachine.run [.add ind]).records = [newRecord {} ind] :=
    add_records {} ind
  rw [hrecords]
  show ind ∈ [completeNormalized ind]
  rw [hcomplete]
  exact List.mem_singleton_self ind

theorem Url.normalizeUrl_ne_nil (u : Url) : normalizeUrl u.text ≠ [] := by
  obtain ⟨path, -, hnormal⟩ := u.normalizeUrl_text
  rw [hnormal]
  simp

/-- `http://evil.io/x`, with a port. -/
def evilUrl (port : Str) (h : isDecimal port = true) : Url where
  scheme := "http".toList
  host := "evil.io".toList
  port := some port
  path := "/x".toList
  scheme_plain := plain_http
  host_valid := rfl
  port_decimal := h
  path_start := Or.inr rfl

def urlIndicator (u : Url) : Indicator := { type := .url, normalized := normalizeUrl u.text }

theorem Url.mem_activeIndicators (u : Url) :
    urlIndicator u ∈ activeIndicators (indexMachine.run [.add (urlIndicator u)]).records :=
  mem_activeIndicators_add u.normalizeUrl_ne_nil

def queryOf (name : Str) : PacketMetadata := { dns := some { questions := [{ name := name }] } }

theorem mem_domainNames_queryOf (name : Str) : name ∈ (queryOf name).domainNames := by
  simp [queryOf, PacketMetadata.domainNames]

theorem covers_evilUrl (port : Str) (h : isDecimal port = true) :
    (evilUrl port h).Covers "evil.io".toList :=
  Url.covers_of_below (Or.inl rfl)

/-- The default port of the scheme is not kept. -/
theorem reported_evilUrl_80 :
    Reported
        (matchPacket { indicators := [urlIndicator (evilUrl "80".toList rfl)] }
          (queryOf "evil.io".toList))
        (urlIndicator (evilUrl "80".toList rfl)) nameField (normalizeDomain "evil.io".toList) ∧
      Reported
        (IndicatorIndex.lookupDomain
          (indexMachine.run [.add (urlIndicator (evilUrl "80".toList rfl))])
          "evil.io".toList nameField)
        (urlIndicator (evilUrl "80".toList rfl)) nameField (normalizeDomain "evil.io".toList) := by
  have hkept : (evilUrl "80".toList rfl).keptPort = none := by decide
  generalize hu : evilUrl "80".toList rfl = u at *
  have hcovers : u.Covers "evil.io".toList := hu ▸ covers_evilUrl _ _
  have hnone : ∀ a ∈ [urlIndicator u], a.role = .allow → ¬ concernsName "evil.io".toList a := by
    intro a ha hallow
    rw [List.mem_singleton.mp ha] at hallow
    cases hallow
  exact (u.reported_iff rfl rfl hcovers (List.mem_singleton_self _) (mem_domainNames_queryOf _)
    u.mem_activeIndicators nameField).mpr ⟨hkept, Or.inr hnone⟩

/-- With `http://evil.io:8080/x` neither matcher reports a query for `evil.io`. -/
theorem not_reported_evilUrl_8080 : ∃ u : Url,
    u.text = "http://evil.io:8080/x".toList ∧ u.Covers "evil.io".toList ∧
      urlIndicator u ∈ activeIndicators (indexMachine.run [.add (urlIndicator u)]).records ∧
      ¬ Reported (matchPacket { indicators := [urlIndicator u] } (queryOf "evil.io".toList))
        (urlIndicator u) nameField (normalizeDomain "evil.io".toList) ∧
      ¬ Reported
        (IndicatorIndex.lookupDomain (indexMachine.run [.add (urlIndicator u)])
          "evil.io".toList nameField)
        (urlIndicator u) nameField (normalizeDomain "evil.io".toList) := by
  have hkept : (evilUrl "8080".toList rfl).keptPort ≠ none := by decide
  have htext : (evilUrl "8080".toList rfl).text = "http://evil.io:8080/x".toList := rfl
  have hcovers := covers_evilUrl "8080".toList rfl
  generalize evilUrl "8080".toList rfl = u at *
  refine ⟨u, htext, hcovers, u.mem_activeIndicators, ?_, ?_⟩
  · rw [reported_matchPacket_iff (mem_domainNames_queryOf _) (List.mem_singleton_self _),
      Url.concernsName_iff u rfl rfl hcovers]
    exact fun h => hkept h.1
  · rw [reported_lookupDomain_iff (synced_run _), Url.filed_iff u rfl rfl hcovers]
    exact fun h => hkept h.2

end PacketGuard.Ioc
