import PacketGuard.Ioc.Loading
import PacketGuard.Ioc.Names

/-! # Stored domain names

`parse_indicator_line` tests a domain value as it is given or with a leading
`*.` cut off, but normalizes it as it is given.  The stored name is in normal
form, and the key of the indicator stands for the names it matches, exactly when
the value passes the first test.
-/
namespace PacketGuard.Ioc
open PacketGuard.Core PacketGuard.Lib

/-! ## What a line gives -/

/-- The type and the value that `parse_indicator_line` takes from a line. -/
def lineValue (line : Str) : Option (IocType × Str) :=
  match indicatorFields (trim (removeComment line)) with
  | [] => none
  | first :: rest =>
    let named :=
      if (inferIocType first).isNone ∧ rest ≠ [] then typeOfToken (toLower (trim first)) else none
    let (type, field, _) :=
      match named, rest with
      | some type, field :: rest => (some type, field, rest)
      | _, _ => (inferIocType first, first, rest)
    type.map fun type => (type, stripQuotes (trim field))

/-- The value is a domain only with `*.` cut off in front of it. -/
def OnlyBehindStar (value : Str) : Prop :=
  isValidDomain value = false ∧ startsWith value "*.".toList = true ∧
    isValidDomain (substr 2 value) = true

/-- The two tests for a domain. -/
def AcceptedDomain (value : Str) : Prop :=
  isValidDomain value = true ∨
    (startsWith value "*.".toList = true ∧ isValidDomain (substr 2 value) = true)

theorem type_of_completeIndicator {ind ind' : Indicator} {value : Str}
    (h : completeIndicator ind value = .ok ind') : ind'.type = ind.type := by
  unfold completeIndicator at h
  cases htype : ind.type <;> simp only [htype] at h
  case ip | cidr | domain | hash =>
    split at h
    · cases h
    · cases h
      rfl
  case url =>
    cases h
    rfl
  case unknown => cases h

theorem lineValue_of_ok {line : Str} {lineNumber : Nat} {ind : Indicator}
    (h : parseIndicatorLine line lineNumber = .ok ind) :
    ∃ start value, lineValue line = some (ind.type, value) ∧ start.type = ind.type ∧
      completeIndicator start value = .ok ind := by
  unfold parseIndicatorLine at h
  simp only at h
  split at h
  · cases h
  split at h
  · cases h
  rename_i first rest hfields
  split at h
  · cases h
  rename_i type htype
  have hsame := type_of_completeIndicator h
  refine ⟨_, _, ?_, hsame.symm, h⟩
  rw [hsame]
  unfold lineValue
  rw [hfields]
  exact Option.map_eq_some_iff.mpr ⟨type, htype, rfl⟩

theorem exists_completeIndicator {ind : Indicator} {value : Str} (htype : ind.type = .domain)
    (h : AcceptedDomain value) :
    ∃ ind', completeIndicator ind value = .ok ind' ∧ ind'.type = .domain ∧
      ind'.normalized = normalizeDomain value := by
  have haccepted : (!isValidDomain value &&
      !(startsWith value "*.".toList && isValidDomain (substr 2 value))) =
      false := by
    rcases h with h | ⟨hstar, hrest⟩
    · rw [h, Bool.not_true, Bool.false_and]
    · rw [hstar, hrest, Bool.and_self, Bool.not_true, Bool.and_false]
  refine ⟨{ ind with normalized := normalizeDomain value }, ?_, htype, rfl⟩
  unfold completeIndicator
  simp only [htype, haccepted]
  rfl

/-- A line with an accepted domain value is accepted. -/
theorem exists_of_acceptedDomain {line value : Str}
    (hvalue : lineValue line = some (.domain, value))
    (h : AcceptedDomain value) (lineNumber : Nat) :
    ∃ ind, parseIndicatorLine line lineNumber = .ok ind ∧ ind.type = .domain ∧
      ind.normalized = normalizeDomain value := by
  unfold lineValue at hvalue
  unfold parseIndicatorLine
  simp only
  split
  · rename_i hempty
    rw [List.isEmpty_iff.mp hempty] at hvalue
    cases hvalue
  cases hfields : indicatorFields (trim (removeComment line)) with
  | nil =>
    rw [hfields] at hvalue
    cases hvalue
  | cons first rest =>
    rw [hfields] at hvalue
    obtain ⟨type, htype, heq⟩ := Option.map_eq_some_iff.mp hvalue
    cases heq
    simp only
    split
    · rename_i hnone
      cases htype.symm.trans hnone
    · rename_i type hsome
      cases htype.symm.trans hsome
      exact exists_completeIndicator rfl h

/-- What is stored of a domain line. -/
theorem domain_of_ok {line : Str} {lineNumber : Nat} {ind : Indicator}
    (h : parseIndicatorLine line lineNumber = .ok ind) (hdomain : ind.type = .domain) :
    ∃ value, lineValue line = some (.domain, value) ∧ AcceptedDomain value ∧
      ind.normalized = normalizeDomain value := by
  obtain ⟨start, value, hvalue, htype, hcomplete⟩ := lineValue_of_ok h
  rw [hdomain] at hvalue htype
  refine ⟨value, hvalue, ?_⟩
  unfold completeIndicator at hcomplete
  simp only [htype] at hcomplete
  split at hcomplete
  · cases hcomplete
  · rename_i haccepted
    cases hcomplete
    refine ⟨?_, rfl⟩
    by_cases hvalid : isValidDomain value = true
    · exact .inl hvalid
    · rw [Bool.not_eq_true] at hvalid
      rw [hvalid] at haccepted
      exact .inr (by simpa using haccepted)

/-! ## Names in normal form -/

/-- A name in normal form, of labels that are not empty. -/
structure StoredCanonical (name : Str) : Prop where
  normal : normalizeDomain name = name
  labels : ∀ label ∈ split name '.' true, label ≠ [] ∧ ∀ c ∈ label, isAlnum c = true ∨ c = '-'

theorem storedCanonical_of_isValidDomain {value : Str} (h : isValidDomain value = true) :
    StoredCanonical (normalizeDomain value) := by
  refine ⟨(canonical_of_isValidDomain h).normalizeDomain_eq, fun label hlabel => ?_⟩
  unfold isValidDomain at h
  simp only at h
  split at h
  · cases h
  have hvalid := List.all_eq_true.mp h label hlabel
  rw [validLabel, Bool.and_eq_true, List.all_eq_true] at hvalid
  refine ⟨?_, fun c hc => by simpa using hvalid.2 c hc⟩
  rintro rfl
  exact absurd hvalid.1 (by decide)

/-- **What is stored** of an accepted value is in normal form when the value passes
as it is given. -/
theorem storedCanonical_iff {value : Str} (h : AcceptedDomain value) :
    StoredCanonical (normalizeDomain value) ↔ isValidDomain value = true := by
  refine ⟨fun hstored => ?_, storedCanonical_of_isValidDomain⟩
  rcases h with h | ⟨hstar, h⟩
  · exact h
  · obtain ⟨w, rfl⟩ := List.isPrefixOf_iff_prefix.mp hstar
    have hrest : isValidDomain w = true := h
    -- what is stored is its own normal form, which is that of the name behind the star
    have hsame : normalizeDomain ("*.".toList ++ w) = normalizeDomain w := by
      rw [← normalizeDomain_twice_star hrest, hstored.normal]
    rw [isValidDomain_congr hsame]
    exact hrest

/-- **Names in normal form** that match the same names are equal. -/
theorem eq_of_domainMatches {name name' : Str} (h : Canonical name) (h' : Canonical name')
    (hsame : ∀ obs, domainMatches name obs = domainMatches name' obs) : name = name' := by
  have hbelow : ∀ {a b : Str}, Canonical a → Canonical b → domainMatches a b = true →
      Below a b := by
    intro a b ha hb hmatch
    rw [domainMatches_iff (by rwa [ha.normalizeDomain_eq]), ha.normalizeDomain_eq,
      hb.normalizeDomain_eq] at hmatch
    exact hmatch
  have hself : ∀ {a : Str}, Canonical a → domainMatches a a = true := by
    intro a ha
    rw [domainMatches_iff (by rwa [ha.normalizeDomain_eq])]
    exact .inl rfl
  have hleft : Below name' name := hbelow h' h (by rw [← hsame name, hself h])
  have hright : Below name name' := hbelow h h' (by rw [hsame name', hself h'])
  rcases hleft with heq | hsuffix
  · exact heq
  · rcases hright with heq | hsuffix'
    · exact heq.symm
    · have hlong := hsuffix.length_le
      have hlong' := hsuffix'.length_le
      rw [List.length_cons] at hlong hlong'
      omega


/-! ## Lines and texts -/

/-- Two domains with one role that match the same names. -/
structure SameDomain (ind ind' : Indicator) : Prop where
  domain : ind.type = .domain
  domain' : ind'.type = .domain
  role : ind.role = ind'.role
  names : ∀ obs, domainMatches ind.normalized obs = domainMatches ind'.normalized obs

/-- Among the lines, a domain is stored in normal form, its key stands for its role and the names it
matches, and a text of these lines keeps it once. -/
structure DomainsCanonical (lines : List Str) : Prop where
  stored : ∀ line ∈ lines, ∀ lineNumber ind, parseIndicatorLine line lineNumber = .ok ind →
    ind.type = .domain → StoredCanonical ind.normalized
  keys : ∀ line ∈ lines, ∀ line' ∈ lines, ∀ lineNumber lineNumber' ind ind',
    parseIndicatorLine line lineNumber = .ok ind → parseIndicatorLine line' lineNumber' = .ok ind' →
    SameDomain ind ind' → indicatorKey ind = indicatorKey ind'
  once : ∀ text source, getlines '\n' text ⊆ lines →
    (parseIndicatorText text source).indicators.Pairwise fun ind ind' => ¬ SameDomain ind ind'

theorem canonical_of_ok {line : Str}
    (h : ∀ value, lineValue line = some (.domain, value) → ¬ OnlyBehindStar value)
    {lineNumber : Nat} {ind : Indicator} (hline : parseIndicatorLine line lineNumber = .ok ind)
    (hdomain : ind.type = .domain) : StoredCanonical ind.normalized ∧ Canonical ind.normalized := by
  obtain ⟨value, hvalue, haccepted, hnormal⟩ := domain_of_ok hline hdomain
  have hvalid : isValidDomain value = true := by
    by_contra hinvalid
    exact h value hvalue ⟨Bool.eq_false_iff.mpr hinvalid, haccepted.resolve_left hinvalid⟩
  rw [hnormal]
  exact ⟨storedCanonical_of_isValidDomain hvalid, canonical_of_isValidDomain hvalid⟩

/-- **Domains are stored in normal form**, and de-duplication catches every
repetition, exactly when no line has a value that is a domain only behind `*.`. -/
theorem domainsCanonical_iff (lines : List Str) :
    DomainsCanonical lines ↔
      ∀ line ∈ lines, ∀ value, lineValue line = some (.domain, value) → ¬ OnlyBehindStar value := by
  constructor
  · rintro h line hline value hvalue ⟨hinvalid, hstar⟩
    obtain ⟨ind, hparse, hdomain, hnormal⟩ := exists_of_acceptedDomain hvalue (.inr hstar) 0
    have hstored := h.stored line hline 0 ind hparse hdomain
    rw [hnormal, storedCanonical_iff (.inr hstar), hinvalid] at hstored
    cases hstored
  · intro h
    have hkeys : ∀ line ∈ lines, ∀ line' ∈ lines, ∀ lineNumber lineNumber' ind ind',
        parseIndicatorLine line lineNumber = .ok ind →
          parseIndicatorLine line' lineNumber' = .ok ind' →
        SameDomain ind ind' → keyFields ind = keyFields ind' := by
      intro line hline line' hline' lineNumber lineNumber' ind ind' hparse hparse' hsame
      have hcanonical := (canonical_of_ok (h line hline) hparse hsame.domain).2
      have hcanonical' := (canonical_of_ok (h line' hline') hparse' hsame.domain').2
      unfold keyFields
      rw [hsame.domain, hsame.domain', hsame.role, eq_of_domainMatches hcanonical hcanonical'
        hsame.names]
    refine ⟨?_, ?_, ?_⟩
    · exact fun line hline lineNumber ind hparse hdomain =>
        (canonical_of_ok (h line hline) hparse hdomain).1
    · intro line hline line' hline' lineNumber lineNumber' ind ind' hparse hparse' hsame
      exact indicatorKey_eq_iff.mpr
        (hkeys line hline line' hline' lineNumber lineNumber' ind ind' hparse hparse' hsame)
    · intro text source hlines
      have hdistinct := (firstsOfKeys_run source (getlines '\n' text)).1
      rw [List.nodup_iff_pairwise_ne, List.pairwise_map] at hdistinct
      refine hdistinct.imp_of_mem ?_
      intro ind ind' hind hind' hne hsame
      obtain ⟨line, hline, parsed, hparse, rfl⟩ := exists_line_of_mem hind
      obtain ⟨line', hline', parsed', hparse', rfl⟩ := exists_line_of_mem hind'
      exact hne (hkeys line (hlines hline) line' (hlines hline') 0 0 parsed parsed' hparse hparse'
        ⟨hsame.domain, hsame.domain', hsame.role, hsame.names⟩)

/-- Two wildcards: the stored name still has one. -/
theorem not_domainsCanonical_twoStars : ¬ DomainsCanonical ["*.*.example.com".toList] := by
  intro h
  have hparse : ∃ ind, parseIndicatorLine "*.*.example.com".toList = .ok ind ∧ ind.type = .domain ∧
      ind.normalized = "*.example.com".toList := ⟨_, rfl, rfl, rfl⟩
  obtain ⟨ind, hparse, hdomain, hnormal⟩ := hparse
  have hstored := (h.stored _ (List.mem_singleton_self _) 0 ind hparse hdomain).normal
  rw [hnormal] at hstored
  exact absurd hstored (by decide)

end PacketGuard.Ioc
