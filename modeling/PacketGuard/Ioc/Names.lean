import PacketGuard.Ioc.Indicator

/-! # Domain names in normal form

`normalize_domain` is not idempotent: it removes one `*.` and one dot, and trims
before it looks at either.  It settles on the names that `is_valid_domain`
accepts, after one application on a valid name and after two on a name behind
`*.`; and a pattern in normal form matches a name exactly when it matches the
normal form of the name.
-/
namespace PacketGuard.Ioc
open PacketGuard.Core

/-- A name that `normalize_domain` leaves alone, with neither a dot nor a `*` in
front. -/
structure Canonical (name : Str) : Prop where
  nonempty : name ≠ []
  noSpace : NoSpace name
  lower : toLower name = name
  noDot : name.head? ≠ some '.'
  noStar : name.head? ≠ some '*'
  noDotEnd : name.getLast? ≠ some '.'

/-- What `normalize_domain` may remove in front of a name. -/
def wildcards : List Str := [[], "*.".toList, ".".toList, "*..".toList]

/-- `stripWildcard` removes a wildcard. -/
theorem exists_wildcard (v : Str) : ∃ q ∈ wildcards, v = q ++ stripWildcard v := by
  have hdot : ∀ u : Str, ∃ q ∈ [[], ".".toList],
      u = q ++ if startsWith u ".".toList then substr 1 u else u := by
    intro u
    by_cases h : startsWith u ".".toList
    · obtain ⟨u', rfl⟩ := List.isPrefixOf_iff_prefix.mp h
      exact ⟨".".toList, by simp, by simp [startsWith, substr]⟩
    · exact ⟨[], by simp, by rw [if_neg h]; rfl⟩
  unfold stripWildcard
  by_cases h : startsWith v "*.".toList
  · obtain ⟨v', rfl⟩ := List.isPrefixOf_iff_prefix.mp h
    obtain ⟨q, hq, heq⟩ := hdot v'
    refine ⟨"*.".toList ++ q, ?_, ?_⟩
    · simp only [List.mem_cons, List.not_mem_nil, or_false] at hq
      rcases hq with rfl | rfl <;> simp [wildcards]
    · simp only [h, if_true]
      rw [List.append_assoc, show substr 2 ("*.".toList ++ v') = v' from rfl, ← heq]
  · obtain ⟨q, hq, heq⟩ := hdot v
    refine ⟨q, ?_, ?_⟩
    · simp only [List.mem_cons, List.not_mem_nil, or_false] at hq
      rcases hq with rfl | rfl <;> simp [wildcards]
    · simp only [h, Bool.false_eq_true, if_false]
      exact heq

theorem toLower_normalizeDomain (domain : Str) :
    toLower (normalizeDomain domain) = normalizeDomain domain := by
  obtain ⟨q, -, hq⟩ := exists_wildcard (toLower (stripTrailingDot (trim domain)))
  have htwice := toLower_toLower (stripTrailingDot (trim domain))
  rw [hq] at htwice
  exact (toLower_of_append htwice).2

theorem startsWith_eq_false_of_head? {v p : Str} {c : Char} (hv : v.head? ≠ some c)
    (hp : p.head? = some c) : startsWith v p = false := by
  rw [startsWith, Bool.eq_false_iff]
  intro h
  exact hv (head?_of_isPrefix (List.isPrefixOf_iff_prefix.mp h) hp)

/-- Behind a wildcard, a canonical name is all that is left. -/
theorem stripWildcard_append {q name : Str} (hq : q ∈ wildcards) (h : Canonical name) :
    stripWildcard (q ++ name) = name := by
  have hdot : startsWith name ".".toList = false := startsWith_eq_false_of_head? h.noDot rfl
  have hstar : startsWith name "*.".toList = false := startsWith_eq_false_of_head? h.noStar rfl
  simp only [wildcards, List.mem_cons, List.not_mem_nil, or_false] at hq
  rcases hq with rfl | rfl | rfl | rfl
  · simp only [stripWildcard, hdot, hstar, Bool.false_eq_true, if_false, List.nil_append]
  · have hrest : stripWildcard ("*.".toList ++ name) =
        if startsWith name ".".toList then substr 1 name else name := rfl
    rw [hrest, hdot]
    rfl
  · rfl
  · rfl

/-- **What `normalize_domain` does** to a name between blanks, with dots behind it. -/
theorem normalizeDomain_append {s m dots t : Str} (hs : Blank s) (ht : Blank t)
    (hdots : ∀ c ∈ dots, c = '.') (hne : m ≠ []) (hm : Trimmed m)
    (hlast : m.getLast? ≠ some '.') :
    normalizeDomain (s ++ (m ++ dots) ++ t) = stripWildcard (toLower m) := by
  have htrimmed : Trimmed (m ++ dots) := by
    constructor
    · intro c hc
      refine hm.1 c ?_
      rwa [List.head?_append_of_ne_nil _ hne] at hc
    · intro c hc
      by_cases hd : dots = []
      · rw [hd, List.append_nil] at hc
        exact hm.2 c hc
      · rw [List.getLast?_append_of_ne_nil _ hd] at hc
        rw [hdots c (List.mem_of_getLast? hc)]
        rfl
  have hstrip : stripTrailingDot (m ++ dots) = m :=
    rdropWhile_append_of_last (fun c hc => by simp [hdots c hc])
      fun c hc => beq_false_of_ne fun hdot => hlast (hdot ▸ hc)
  rw [normalizeDomain, trim_blank_append hs htrimmed ht (by simp [hne]), hstrip]

/-- Conversely, a name whose normal form is canonical is of that kind. -/
theorem exists_core {w : Str} (h : Canonical (normalizeDomain w)) :
    ∃ s m dots t, Blank s ∧ Blank t ∧ (∀ c ∈ dots, c = '.') ∧ m ≠ [] ∧ Trimmed m ∧
      m.getLast? ≠ some '.' ∧ w = s ++ (m ++ dots) ++ t ∧
      normalizeDomain w = stripWildcard (toLower m) := by
  obtain ⟨s, t, hs, ht, hw⟩ := exists_blank_trim w
  have hnormal : normalizeDomain w = stripWildcard (toLower (stripTrailingDot (trim w))) := rfl
  obtain ⟨q, -, hq⟩ := exists_wildcard (toLower (stripTrailingDot (trim w)))
  rw [← hnormal] at hq
  have hne : stripTrailingDot (trim w) ≠ [] := by
    intro hnil
    rw [hnil] at hq
    exact h.nonempty (List.append_eq_nil_iff.mp hq.symm).2
  -- the core ends as the canonical name does, up to case
  have hlast : ∀ c, (stripTrailingDot (trim w)).getLast? = some c →
      (normalizeDomain w).getLast? = some c.toLower := by
    intro c hc
    have hlower : (toLower (stripTrailingDot (trim w))).getLast? = some c.toLower := by
      rw [toLower, List.getLast?_map, hc]
      rfl
    rwa [hq, List.getLast?_append_of_ne_nil _ h.nonempty] at hlower
  refine ⟨s, stripTrailingDot (trim w), (trim w).rtakeWhile (· == '.'), t, hs, ht, ?_, hne, ?_, ?_,
    ?_, hnormal⟩
  · intro c hc
    have hdot := List.mem_rtakeWhile_imp (p := (· == '.')) hc
    exact beq_iff_eq.mp hdot
  · constructor
    · intro c hc
      exact (trimmed_trim w).1 c (head?_of_isPrefix (List.rdropWhile_prefix _ _) hc)
    · intro c hc
      rw [← isSpace_toLower]
      exact h.noSpace _ (List.mem_of_getLast? (hlast c hc))
  · intro hdot
    exact h.noDotEnd (hlast '.' hdot)
  · rw [stripTrailingDot, List.rdropWhile_append_rtakeWhile]
    exact hw

/-- A canonical name is its own normal form, also behind blanks and a wildcard. -/
theorem normalizeDomain_wildcard {s q name : Str} (hs : Blank s) (hq : q ∈ wildcards)
    (h : Canonical name) : normalizeDomain (s ++ (q ++ name)) = name := by
  have hlower : toLower q = q := by
    simp only [wildcards, List.mem_cons, List.not_mem_nil, or_false] at hq
    rcases hq with rfl | rfl | rfl | rfl <;> rfl
  have htrimmed : Trimmed (q ++ name) := by
    constructor
    · intro c hc
      simp only [wildcards, List.mem_cons, List.not_mem_nil, or_false] at hq
      rcases hq with rfl | rfl | rfl | rfl
      · exact h.noSpace c (List.mem_of_head? hc)
      all_goals
        cases hc
        rfl
    · intro c hc
      rw [List.getLast?_append_of_ne_nil _ h.nonempty] at hc
      exact h.noSpace c (List.mem_of_getLast? hc)
  have hlast : (q ++ name).getLast? ≠ some '.' := by
    rw [List.getLast?_append_of_ne_nil _ h.nonempty]
    exact h.noDotEnd
  have hnormal : normalizeDomain (s ++ ((q ++ name) ++ []) ++ []) =
      stripWildcard (toLower (q ++ name)) :=
    normalizeDomain_append hs (fun _ hc => absurd hc List.not_mem_nil)
      (fun _ hc => absurd hc List.not_mem_nil) (by simp [h.nonempty]) htrimmed hlast
  rw [List.append_nil, List.append_nil] at hnormal
  rw [hnormal, toLower_append, hlower, h.lower, stripWildcard_append hq h]

theorem Canonical.normalizeDomain_eq {name : Str} (h : Canonical name) :
    normalizeDomain name = name :=
  normalizeDomain_wildcard (fun _ hc => absurd hc List.not_mem_nil) (by simp [wildcards]) h
    (s := []) (q := [])

/-! ## Valid names -/

theorem isValidDomain_congr {a b : Str} (h : normalizeDomain a = normalizeDomain b) :
    isValidDomain a = isValidDomain b := by
  unfold isValidDomain
  rw [h]

/-- The characters of a valid name: those of its labels, and dots between them. -/
theorem mem_normalizeDomain {domain : Str} (h : isValidDomain domain = true) {c : Char}
    (hc : c ∈ normalizeDomain domain) : isAlnum c = true ∨ c = '-' ∨ c = '.' := by
  by_cases hdot : c = '.'
  · exact Or.inr (Or.inr hdot)
  · unfold isValidDomain at h
    simp only at h
    split at h
    · cases h
    obtain ⟨p, hp, hcp⟩ := mem_split hc hdot
    have hvalid := List.all_eq_true.mp h p hp
    rw [validLabel, Bool.and_eq_true, List.all_eq_true] at hvalid
    have hchar : isAlnum c = true ∨ c = '-' := by simpa using hvalid.2 c hcp
    exact hchar.imp_right Or.inl

/-- The normal form of a valid name is canonical. -/
theorem canonical_of_isValidDomain {domain : Str} (h : isValidDomain domain = true) :
    Canonical (normalizeDomain domain) := by
  have hchars := @mem_normalizeDomain _ h
  unfold isValidDomain at h
  simp only at h
  split at h
  · cases h
  rename_i hshape
  simp only [Bool.or_eq_true, not_or, List.isEmpty_iff] at hshape
  rw [List.all_eq_true] at h
  have hnil : [] ∉ split (normalizeDomain domain) '.' true := fun hmem =>
    absurd (h [] hmem) (by decide)
  refine ⟨hshape.1.1, ?_, toLower_normalizeDomain domain, ?_, ?_, ?_⟩
  · intro c hc
    rcases hchars hc with halnum | rfl | rfl
    · exact isSpace_of_isAlnum halnum
    · rfl
    · rfl
  · exact fun hhead => hnil (nil_mem_split_of_head? hhead)
  · intro hhead
    rcases hchars (List.mem_of_head? hhead) with hstar | hstar | hstar <;> cases hstar
  · exact fun hlast => hnil (nil_mem_split_of_getLast? hlast)

/-- The characters a valid name is written with. -/
def HostChar (c : Char) : Prop := isSpace c = true ∨ isAlnum c = true ∨ c ∈ ['-', '.', '*']

instance (c : Char) : Decidable (HostChar c) := by
  unfold HostChar
  infer_instance

theorem hostChar_of_toLower {c : Char} (h : HostChar c.toLower) : HostChar c := by
  by_cases hu : c.isUpper
  · exact Or.inr (Or.inl (by simp [Char.isAlphanum, Char.isAlpha, hu]))
  · rwa [Char.toLower_eq_of_not_isUpper hu] at h

theorem hostChar_of_isValidDomain {domain : Str} (h : isValidDomain domain = true) {c : Char}
    (hc : c ∈ domain) : HostChar c := by
  obtain ⟨s, m, dots, t, hs, ht, hdots, -, -, -, heq, hnormal⟩ :=
    exists_core (canonical_of_isValidDomain h)
  obtain ⟨q, hq, hlower⟩ := exists_wildcard (toLower m)
  rw [← hnormal] at hlower
  rw [heq, List.mem_append, List.mem_append, List.mem_append] at hc
  rcases hc with (hc | hc | hc) | hc
  · exact Or.inl (hs c hc)
  · have hmem : c.toLower ∈ toLower m := List.mem_map_of_mem hc
    rw [hlower, List.mem_append] at hmem
    refine hostChar_of_toLower ?_
    rcases hmem with hmem | hmem
    · have hwild : ∀ q ∈ wildcards, ∀ d ∈ q, d ∈ ['-', '.', '*'] := by simp [wildcards]
      exact Or.inr (Or.inr (hwild q hq _ hmem))
    · rcases mem_normalizeDomain h hmem with halnum | hsign | hsign
      · exact Or.inr (Or.inl halnum)
      · exact Or.inr (Or.inr (by simp [hsign]))
      · exact Or.inr (Or.inr (by simp [hsign]))
  · exact Or.inr (Or.inr (by simp [hdots c hc]))
  · exact Or.inl (ht c hc)

/-- The normal form of a name behind `*.`: the star and one dot are gone, and blanks
that followed them are kept. -/
theorem normalizeDomain_star {s m dots t q : Str} {name : Str} (hs : Blank s) (ht : Blank t)
    (hdots : ∀ c ∈ dots, c = '.') (hne : m ≠ []) (hm : Trimmed m) (hlast : m.getLast? ≠ some '.')
    (hlower : toLower m = q ++ name) :
    normalizeDomain ("*.".toList ++ (s ++ (m ++ dots) ++ t)) =
      if startsWith (s ++ (q ++ name)) ".".toList then substr 1 (s ++ (q ++ name))
      else s ++ (q ++ name) := by
  have htrimmed : Trimmed ("*.".toList ++ s ++ m) := by
    constructor
    · intro c hc
      cases hc
      rfl
    · intro c hc
      rw [List.getLast?_append_of_ne_nil _ hne] at hc
      exact hm.2 c hc
  have happend := normalizeDomain_append (fun _ hc => absurd hc List.not_mem_nil) ht hdots
    (by simp) htrimmed (by rw [List.getLast?_append_of_ne_nil _ hne]; exact hlast) (s := [])
  have hsame : ([] : Str) ++ ("*.".toList ++ s ++ m ++ dots) ++ t =
      "*.".toList ++ (s ++ (m ++ dots) ++ t) := by
    simp
  rw [hsame, toLower_append, toLower_append, hs.toLower_eq, hlower] at happend
  rw [happend, List.append_assoc]
  rfl

/-- Of a valid name behind `*.` two applications leave the normal form of the name. -/
theorem normalizeDomain_twice_star {w : Str} (h : isValidDomain w = true) :
    normalizeDomain (normalizeDomain ("*.".toList ++ w)) = normalizeDomain w := by
  have hcanonical : Canonical (normalizeDomain w) := canonical_of_isValidDomain h
  obtain ⟨s, m, dots, t, hs, ht, hdots, hne, hm, hlast, hw, hnormal⟩ := exists_core hcanonical
  obtain ⟨q, hq, hlower⟩ := exists_wildcard (toLower m)
  rw [← hnormal] at hlower
  conv in normalizeDomain ("*.".toList ++ w) => rw [hw]
  rw [normalizeDomain_star hs ht hdots hne hm hlast hlower]
  by_cases hdot : startsWith (s ++ (q ++ normalizeDomain w)) ".".toList
  · -- no blank in front, so the wildcard loses its first dot
    rw [if_pos hdot]
    obtain ⟨rest, hrest⟩ := List.isPrefixOf_iff_prefix.mp hdot
    have hsnil : s = [] := by
      cases s with
      | nil => rfl
      | cons c s =>
        have hspace := hs c (by simp)
        rw [← (List.cons.inj hrest).1] at hspace
        cases hspace
    subst hsnil
    -- of the wildcards only the lone dot starts with one
    have hq' : q = ".".toList := by
      simp only [wildcards, List.mem_cons, List.not_mem_nil, or_false] at hq
      rcases hq with rfl | rfl | rfl | rfl
      · exact absurd (head?_of_isPrefix (List.isPrefixOf_iff_prefix.mp hdot) rfl) hcanonical.noDot
      · cases (List.cons.inj hrest).1
      · rfl
      · cases (List.cons.inj hrest).1
    subst hq'
    have hsub : substr 1 ([] ++ (".".toList ++ normalizeDomain w)) = normalizeDomain w := rfl
    rw [hsub, hcanonical.normalizeDomain_eq]
  · -- whatever is left in front of the name goes the second time
    rw [if_neg hdot, normalizeDomain_wildcard hs hq hcanonical]

/-- **Two applications suffice**: the normal form of the normal form of what
`parse_indicator_line` accepts as a domain is canonical. -/
theorem canonical_normalizeDomain_twice {value : Str}
    (h : isValidDomain value = true ∨
      (startsWith value "*.".toList = true ∧ isValidDomain (substr 2 value) = true)) :
    Canonical (normalizeDomain (normalizeDomain value)) := by
  rcases h with h | ⟨hstar, h⟩
  · have hcanonical := canonical_of_isValidDomain h
    rwa [hcanonical.normalizeDomain_eq]
  · obtain ⟨w, rfl⟩ := List.isPrefixOf_iff_prefix.mp hstar
    have hrest : isValidDomain w = true := h
    rw [normalizeDomain_twice_star hrest]
    exact canonical_of_isValidDomain hrest

/-! ## Matching -/

/-- `obs` is the name or a name below it. -/
def Below (name obs : Str) : Prop := obs = name ∨ ('.' :: name) <:+ obs

theorem domainMatches_iff {name obs : Str} (h : Canonical (normalizeDomain name)) :
    domainMatches name obs = true ↔ Below (normalizeDomain name) (normalizeDomain obs) := by
  have hne : (normalizeDomain name).isEmpty = false := List.isEmpty_eq_false_iff.mpr h.nonempty
  unfold domainMatches Below
  simp only [hne, Bool.false_or]
  by_cases hobs : (normalizeDomain obs).isEmpty
  · have hnil : normalizeDomain obs = [] := List.isEmpty_iff.mp hobs
    rw [hnil]
    constructor
    · intro hfalse
      cases hfalse
    · rintro (heq | hsuffix)
      · exact absurd heq.symm h.nonempty
      · exact absurd (List.suffix_nil.mp hsuffix) (List.cons_ne_nil _ _)
  · rw [if_neg hobs, Bool.or_eq_true, beq_iff_eq, endsWith, List.isSuffixOf_iff_suffix]

/-- The wildcard in front of a name holds no part of a name above it. -/
theorem below_of_suffix_append {q obs name : Str} (hq : q ∈ wildcards) (h : Canonical name)
    (hsuffix : ('.' :: name) <:+ q ++ obs) : Below name obs := by
  rcases List.suffix_or_suffix_of_suffix hsuffix (List.suffix_append q obs) with hin | ⟨r, hr⟩
  · exact Or.inr hin
  · -- the dot and perhaps more lie in the wildcard
    have hrq : r <:+ q := by
      obtain ⟨u, hu⟩ := hsuffix
      rw [← hr, ← List.append_assoc] at hu
      exact ⟨u, List.append_cancel_right hu⟩
    rcases r with _ | ⟨c, _ | ⟨d, r⟩⟩
    · exact Or.inr ⟨[], hr.symm⟩
    · exact Or.inl (List.cons.inj hr).2
    · -- two characters of a wildcard that start with a dot: the second is a dot too
      obtain ⟨rfl, hname⟩ := List.cons.inj hr
      have hd : d ≠ '.' := by
        rintro rfl
        exact h.noDot (hname ▸ rfl)
      have hlength := hrq.length_le
      simp only [wildcards, List.mem_cons, List.not_mem_nil, or_false] at hq
      rcases hq with rfl | rfl | rfl | rfl
      · simp at hlength
      · have hr' : r = [] := by simpa using hlength
        subst hr'
        simp [List.suffix_cons_iff] at hrq
      · simp at hlength
      · simp [List.suffix_cons_iff, hd] at hrq

/-- A wildcard in front of the observed name makes no difference. -/
theorem below_append {q obs name : Str} (hq : q ∈ wildcards) (h : Canonical name) :
    Below name (q ++ obs) ↔ Below name obs := by
  have hcases : q = [] ∨ q = "*.".toList ∨ q = ".".toList ∨ q = "*..".toList := by
    simpa [wildcards] using hq
  constructor
  · rintro (heq | hsuffix)
    · -- a canonical name starts with neither a star nor a dot
      rcases hcases with rfl | rfl | rfl | rfl
      · exact Or.inl heq
      · exact absurd (heq ▸ rfl) h.noStar
      · exact absurd (heq ▸ rfl) h.noDot
      · exact absurd (heq ▸ rfl) h.noStar
    · exact below_of_suffix_append hq h hsuffix
  · rintro (rfl | hsuffix)
    · rcases hcases with rfl | rfl | rfl | rfl
      · exact Or.inl rfl
      · exact Or.inr ⟨"*".toList, rfl⟩
      · exact Or.inr ⟨[], rfl⟩
      · exact Or.inr ⟨"*.".toList, rfl⟩
    · exact Or.inr (hsuffix.trans (List.suffix_append q obs))

/-- The normal form of a plain name loses at most a wildcard when it is normalized
again. -/
theorem normalizeDomain_twice_plain {name : Str} (h : PlainName name) :
    normalizeDomain (normalizeDomain name) = stripWildcard (normalizeDomain name) := by
  obtain ⟨hlower, hspace⟩ := h
  have hstrip : NoSpace (stripTrailingDot name) := fun c hc =>
    hspace c ((List.rdropWhile_prefix _ _).subset hc)
  have hkeep : toLower (stripTrailingDot name) = stripTrailingDot name := by
    obtain ⟨rest, hrest⟩ := List.rdropWhile_prefix (· == '.') name
    rw [← hrest] at hlower
    exact (toLower_of_append hlower).1
  have hnormal : normalizeDomain name = stripWildcard (stripTrailingDot name) := by
    rw [normalizeDomain, trim_eq_self hspace.trimmed, hkeep]
  obtain ⟨q, -, hq⟩ := exists_wildcard (stripTrailingDot name)
  rw [← hnormal] at hq
  have hspace' : NoSpace (normalizeDomain name) := fun c hc =>
    hstrip c (by rw [hq]; exact List.mem_append_right _ hc)
  -- the last dots went the first time, and stripping a wildcard adds none
  have hdots : stripTrailingDot (normalizeDomain name) = normalizeDomain name := by
    refine List.rdropWhile_eq_self_iff.mpr fun hne => ?_
    have hne' : stripTrailingDot name ≠ [] := by
      rw [hq]
      simp [hne]
    have hlast := List.rdropWhile_last_not (· == '.') name hne'
    have hsame : (stripTrailingDot name).getLast hne' = (normalizeDomain name).getLast hne := by
      have happend : (q ++ normalizeDomain name).getLast (by simp [hne]) =
          (normalizeDomain name).getLast hne := List.getLast_append_of_ne_nil _ hne
      rw [← happend]
      congr 1
    rw [← hsame]
    exact hlast
  rw [normalizeDomain, trim_eq_self hspace'.trimmed, hdots, toLower_normalizeDomain]

/-- **Both matchers agree on a name**: normalizing pattern and plain name once more
makes no difference. -/
theorem domainMatches_normalized {name obs : Str} (h : Canonical (normalizeDomain name))
    (hobs : PlainName obs) :
    domainMatches (normalizeDomain name) (normalizeDomain obs) = domainMatches name obs := by
  rw [Bool.eq_iff_iff, domainMatches_iff h, domainMatches_iff (by rwa [h.normalizeDomain_eq]),
    h.normalizeDomain_eq, normalizeDomain_twice_plain hobs]
  obtain ⟨q, hq, heq⟩ := exists_wildcard (normalizeDomain obs)
  conv_rhs => rw [heq]
  exact (below_append hq h).symm

end PacketGuard.Ioc
