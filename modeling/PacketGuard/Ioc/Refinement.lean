import PacketGuard.Ioc.Lookup
import PacketGuard.Ioc.Names

/-! # The index refines the linear matcher

The index finds the matches of a packet through a trie of address bits and a map
of names, the linear matcher by testing every indicator.  After any run that the
trie has room for, both report the same indicators, fields and values, each as
often (`matchPacket_refines`).  The proof has three parts.

Addresses.  A range contains an address just if the path of the range is an
initial segment of the bits of the address (`contains_iff`); the walk reads the
items at every such segment, so it reads each indicator about the address once.

Names.  The map holds normalized patterns and the index normalizes the name once
more, where the linear matcher compares the pattern as it was parsed.  This
makes no difference for patterns that are canonical and names without capitals
and blanks (`domainMatches_normalized`).

Suppression.  An allow match silences the others on its field and value.  Which
matches stay depends on the reported triples alone, not on their order or on the
reasons, which differ between the two matchers; so it is enough to compare what
goes into the suppression, up to a permutation (`suppressTriples_perm`).
-/
namespace PacketGuard.Ioc
open PacketGuard.Core PacketGuard.Packet PacketGuard.Lib
open IndicatorIndex

/-! ## Parsed indicators -/

/-- `parse_indicator_line` returned the indicator, of address or domain type. -/
def Parsed (ind : Indicator) : Prop :=
  (∃ line lineNumber, parseIndicatorLine line lineNumber = .ok ind) ∧
    (ind.type = .ip ∨ ind.type = .cidr ∨ ind.type = .domain)

/-- What the matchers rely on: each type with its data, and a name that is
canonical once it is normalized. -/
structure Sound (ind : Indicator) : Prop where
  kind : ind.type = .ip ∨ ind.type = .cidr ∨ ind.type = .domain
  ip : ind.type = .ip → ind.cidr = none ∧ ∃ ip, ind.ip = some ip
  cidr : ind.type = .cidr → ∃ range, ind.cidr = some range ∧ range.prefixLength ≤ 32
  domain : ind.type = .domain → Canonical (normalizeDomain ind.normalized)

theorem sound_of_completeIndicator {ind ind' : Indicator} {value : Str} (hcidr : ind.cidr = none)
    (h : completeIndicator ind value = .ok ind')
    (hkind : ind'.type = .ip ∨ ind'.type = .cidr ∨ ind'.type = .domain) : Sound ind' := by
  unfold completeIndicator at h
  cases htype : ind.type <;> simp only [htype] at h
  case ip =>
    split at h
    · cases h
    · cases h
      exact ⟨Or.inl rfl, fun _ => ⟨hcidr, _, rfl⟩, nofun, nofun⟩
  case cidr =>
    split at h
    · cases h
    · rename_i range hrange
      cases h
      exact ⟨Or.inr (Or.inl rfl), nofun, fun _ => ⟨range, rfl, (parseCidr_valid hrange).1⟩, nofun⟩
  case domain =>
    split at h
    · cases h
    · rename_i hvalid
      cases h
      refine ⟨Or.inr (Or.inr rfl), nofun, nofun, fun _ => canonical_normalizeDomain_twice ?_⟩
      by_cases hdomain : isValidDomain value = true
      · exact Or.inl hdomain
      · simpa [hdomain] using hvalid
  case url =>
    cases h
    simp at hkind
  case hash =>
    split at h
    · cases h
    · cases h
      simp at hkind
  case unknown => cases h

theorem sound_of_parsed {ind : Indicator} (h : Parsed ind) : Sound ind := by
  obtain ⟨⟨line, lineNumber, hline⟩, hkind⟩ := h
  unfold parseIndicatorLine at hline
  simp only at hline
  split at hline
  · cases hline
  split at hline
  · cases hline
  split at hline
  · cases hline
  exact sound_of_completeIndicator rfl hline hkind

theorem Sound.completeNormalized {ind : Indicator} (h : Sound ind) :
    Sound (completeNormalized ind) := by
  unfold IndicatorIndex.completeNormalized
  by_cases hempty : ind.normalized.isEmpty
  · rw [if_pos hempty]
    rcases h.kind with htype | htype | htype
    · simpa only [htype] using h
    · simpa only [htype] using h
    · -- a domain has a normal form
      have hcanonical := h.domain htype
      rw [List.isEmpty_iff.mp hempty] at hcanonical
      exact absurd rfl hcanonical.nonempty
  · rw [if_neg hempty]
    exact h

theorem Sound.withRole {ind : Indicator} (h : Sound ind) (role : ListRole) :
    Sound { ind with role := role } :=
  ⟨h.kind, h.ip, h.cidr, h.domain⟩

/-! ## The records of a run -/

/-- The active indicators of a run that adds parsed indicators are sound. -/
theorem sound_activeIndicators {ops : List IndexOp}
    (hops : ∀ op ∈ ops, ∀ ind ∈ addedBy op, Parsed ind) :
    ∀ ind ∈ activeIndicators (indexMachine.run ops).records, Sound ind := by
  have hall : AllRecords Sound (indexMachine.run ops) := by
    refine indexMachine.run_invariant (P := fun op => ∀ ind ∈ addedBy op, Parsed ind) ?_ ?_ hops
    · exact fun rec hrec => absurd hrec List.not_mem_nil
    · intro idx op hop hidx
      exact (change_step idx op).allRecords (fun _ h => h.completeNormalized)
        (fun _ role h => h.withRole role) (fun ind hind => sound_of_parsed (hop ind hind)) hidx
  intro ind hind
  obtain ⟨rec, hrec, rfl⟩ := List.mem_map.mp hind
  exact hall rec (List.mem_of_mem_filter hrec)

/-! ## Addresses -/

theorem addressBits_eq_iff (a b : BitVec 32) {count : Nat} (h : count ≤ 32) :
    addressBits a count = addressBits b count ↔
      ∀ i < 32, 32 - count ≤ i → a.getLsbD i = b.getLsbD i := by
  rw [addressBits_eq, addressBits_eq]
  simp only [List.map_inj_left, List.mem_range]
  -- the path starts with the highest bit: position `bit` of it is bit `31 - bit`
  constructor
  · intro heq i hi hle
    have hbits := heq (31 - i) (by omega)
    rwa [show 31 - (31 - i) = i by omega] at hbits
  · intro heq bit hbit
    exact heq (31 - bit) (by omega) (by omega)

/-- A range contains the addresses with the first bits of its network. -/
theorem contains_iff (range : CIDRRange) (h : range.prefixLength ≤ 32) (ip : IPv4Address) :
    range.contains ip = true ↔
      addressBits range.network.value range.prefixLength =
        addressBits ip.value range.prefixLength := by
  rw [CIDRRange.contains, beq_iff_eq, addressBits_eq_iff _ _ h]
  constructor
  · intro heq i hi hle
    have hbit := congrArg (fun v : BitVec 32 => v.getLsbD i) heq
    simp only [BitVec.getLsbD_and, getLsbD_cidrMask _ hi, decide_eq_true hle, Bool.and_true] at hbit
    exact hbit.symm
  · intro heq
    apply BitVec.eq_of_getLsbD_eq
    intro i hi
    rw [BitVec.getLsbD_and, BitVec.getLsbD_and, getLsbD_cidrMask _ hi]
    -- below the prefix the mask clears both sides
    by_cases hle : 32 - range.prefixLength ≤ i
    · rw [heq i hi hle]
    · simp [hle]

/-- The indicator is about the address. -/
def coversIp (ip : IPv4Address) (ind : Indicator) : Bool :=
  (ind.type = .ip ∧ ind.ip = some ip) ∨ (ind.type = .cidr ∧ ind.cidr.any (·.contains ip))

theorem map_snd_filter_keyed {κ : Type} (key : Indicator → Option κ) (inds : List Indicator)
    (p : κ → Bool) :
    ((keyed key inds).filter fun e => p e.1).map Prod.snd =
      inds.filter fun ind => (key ind).any p := by
  induction inds with
  | nil => rfl
  | cons ind inds ih =>
    unfold keyed at ih ⊢
    cases hkey : key ind with
    | none => simpa [hkey] using ih
    | some k => by_cases hp : p k <;> simp [hkey, hp, ih]

theorem contains_exact (ip' ip : IPv4Address) :
    (⟨ip', 32⟩ : CIDRRange).contains ip = true ↔ ip' = ip := by
  have hmask : ∀ v : BitVec 32, v &&& cidrMask 32 = v := fun v => BitVec.and_allOnes
  rw [CIDRRange.contains, beq_iff_eq, hmask, hmask]
  constructor
  · intro heq
    cases ip
    cases ip'
    exact congrArg IPv4Address.mk heq.symm
  · rintro rfl
    rfl

/-- The paths of the ranges around an address: its bits, cut at each length. -/
theorem mem_addressPaths (ip : IPv4Address) (path : List Bool) :
    path ∈ (List.range 33).map (addressBits ip.value) ↔
      path.length ≤ 32 ∧ path = addressBits ip.value path.length := by
  constructor
  · intro h
    obtain ⟨count, hcount, rfl⟩ := List.mem_map.mp h
    rw [length_addressBits]
    exact ⟨Nat.le_of_lt_succ (List.mem_range.mp hcount), rfl⟩
  · rintro ⟨hle, heq⟩
    rw [heq]
    exact List.mem_map_of_mem (List.mem_range.mpr (Nat.lt_succ_of_le hle))

theorem nodup_addressPaths (ip : IPv4Address) :
    ((List.range 33).map (addressBits ip.value)).Nodup := by
  refine List.Nodup.map ?_ List.nodup_range
  intro m n heq
  have hlength := congrArg List.length heq
  rwa [length_addressBits, length_addressBits] at hlength

/-! ## Indicators of every type -/

/-- An address indicator has its data. -/
structure Ranged (ind : Indicator) : Prop where
  ip : ind.type = .ip → ind.cidr = none ∧ ∃ ip, ind.ip = some ip
  cidr : ind.type = .cidr → ∃ range, ind.cidr = some range ∧ range.prefixLength ≤ 32

/-- What the matchers rely on, for an indicator of any type: the name a domain or
URL indicator is filed under is canonical, too. -/
structure Filed (ind : Indicator) : Prop extends Ranged ind where
  name : ∀ key, nameKey ind = some key → Canonical key

theorem Sound.filed {ind : Indicator} (h : Sound ind) : Filed ind where
  toRanged := ⟨h.ip, h.cidr⟩
  name key hkey := by
    rcases h.kind with htype | htype | htype
    · simp [nameKey, htype] at hkey
    · simp [nameKey, htype] at hkey
    · simp only [nameKey, htype, indexedDomain, reduceCtorEq, if_false, Option.some.injEq] at hkey
      exact hkey ▸ h.domain htype

theorem Ranged.shortRange {ind : Indicator} (h : Ranged ind) : ShortRange ind := by
  intro path hpath
  unfold pathKey at hpath
  cases htype : ind.type <;> simp only [htype] at hpath
  case ip =>
    obtain ⟨hcidr, ip, hip⟩ := h.ip htype
    simp only [indexedRange, hcidr, hip, Option.map_some, Option.some.injEq] at hpath
    rw [← hpath, length_addressBits]
  case cidr =>
    obtain ⟨range, hrange, hcount⟩ := h.cidr htype
    simp only [indexedRange, hrange, Option.map_some, Option.some.injEq] at hpath
    rwa [← hpath, length_addressBits]
  all_goals cases hpath

/-- The ranges around an address are those of the indicators about it. -/
theorem Ranged.pathKey_any {ind : Indicator} (h : Ranged ind) (ip : IPv4Address) :
    ((pathKey ind).any fun path =>
        decide (path.length ≤ 32 ∧ path = addressBits ip.value path.length)) =
      coversIp ip ind := by
  rw [Bool.eq_iff_iff]
  cases htype : ind.type with
  | ip =>
    obtain ⟨hcidr, ip', hip⟩ := h.ip htype
    have hpath : pathKey ind = some (addressBits ip'.value 32) := by
      simp [pathKey, htype, indexedRange, hcidr, hip]
    have hexact := (contains_iff ⟨ip', 32⟩ (Nat.le_refl 32) ip).symm.trans (contains_exact ip' ip)
    rw [hpath, Option.any_some, decide_eq_true_iff, length_addressBits]
    simp only at hexact
    rw [hexact]
    simp [coversIp, htype, hip]
  | cidr =>
    obtain ⟨range, hrange, hcount⟩ := h.cidr htype
    have hpath : pathKey ind = some (addressBits range.network.value range.prefixLength) := by
      simp [pathKey, htype, indexedRange, hrange]
    rw [hpath, Option.any_some, decide_eq_true_iff, length_addressBits, ← contains_iff range hcount]
    simp [coversIp, htype, hrange, hcount]
  | domain => simp [pathKey, coversIp, htype]
  | url => simp [pathKey, coversIp, htype]
  | hash => simp [pathKey, coversIp, htype]
  | unknown => simp [pathKey, coversIp, htype]

/-- **The trie finds exactly the indicators about the address.** -/
theorem perm_ipLookup {inds : List Indicator} (hranged : ∀ ind ∈ inds, Ranged ind)
    (ip : IPv4Address) :
    (ipLookup inds ip).Perm (inds.filter (coversIp ip)) := by
  have hperm := perm_flatMap_valuesOf (keyed pathKey inds) _ (nodup_addressPaths ip)
  rw [List.flatMap_map] at hperm
  simp only [mem_addressPaths] at hperm
  rw [map_snd_filter_keyed pathKey inds
    fun path => decide (path.length ≤ 32 ∧ path = addressBits ip.value path.length)] at hperm
  exact hperm.trans (List.Perm.of_eq
    (List.filter_congr fun ind hind => (hranged ind hind).pathKey_any ip))

/-! ## Names -/

/-- The indicator is about the name. -/
def coversName (name : Str) (ind : Indicator) : Bool :=
  (ind.type = .domain ∧ domainMatches ind.normalized name) ∨
    (ind.type = .url ∧ domainMatches (urlHost ind.normalized) name)

/-- The names above an observed one are those of the indicators about it. -/
theorem Filed.nameKey_any {ind : Indicator} (h : Filed ind) {name : Str} (hname : PlainName name) :
    ((nameKey ind).any fun key => domainMatches key (normalizeDomain name)) =
      coversName name ind := by
  cases htype : ind.type with
  | domain =>
    have hkey : nameKey ind = some (normalizeDomain ind.normalized) := by
      simp [nameKey, htype, indexedDomain]
    rw [hkey, Option.any_some, domainMatches_normalized (h.name _ hkey) hname]
    simp [coversName, htype]
  | url =>
    have hkey : nameKey ind = some (normalizeDomain (urlHost ind.normalized)) := by
      simp [nameKey, htype, indexedDomain]
    rw [hkey, Option.any_some, domainMatches_normalized (h.name _ hkey) hname]
    simp [coversName, htype]
  | ip => simp [nameKey, coversName, htype]
  | cidr => simp [nameKey, coversName, htype]
  | hash => simp [nameKey, coversName, htype]
  | unknown => simp [nameKey, coversName, htype]

/-- The name map finds the indicators filed under a name above the observed one. -/
theorem perm_nameLookup_filter (inds : List Indicator) (observed : Str) :
    (nameLookup inds observed).Perm
      (inds.filter fun ind => (nameKey ind).any fun key => domainMatches key observed) := by
  have hperm := perm_flatMap_fileAll (keyed nameKey inds) fun key => domainMatches key observed
  rwa [map_snd_filter_keyed nameKey inds fun key => domainMatches key observed] at hperm

/-- **The name map finds exactly the indicators about the name.** -/
theorem perm_nameLookup {inds : List Indicator} (hfiled : ∀ ind ∈ inds, Filed ind) {name : Str}
    (hname : PlainName name) :
    (nameLookup inds (normalizeDomain name)).Perm (inds.filter (coversName name)) :=
  (perm_nameLookup_filter inds _).trans
    (List.Perm.of_eq (List.filter_congr fun ind hind => (hfiled ind hind).nameKey_any hname))

/-! ## Matches -/

/-- What a match reports, apart from its reason. -/
def triple (m : MatchResult) : Indicator × Str × Str := (m.indicator, m.field, m.value)

theorem map_triple_ipMatches (inds : List Indicator) (ip : IPv4Address) (field : Str) :
    (ipMatches { indicators := inds } ip field).map triple =
      (inds.filter (coversIp ip)).map fun ind => (ind, field, ipv4ToString ip) := by
  unfold ipMatches
  induction inds with
  | nil => rfl
  | cons ind inds ih =>
    rw [List.flatMap_cons, List.map_append, ih, List.filter_cons]
    by_cases hip : ind.type = .ip
    · by_cases heq : ind.ip = some ip <;> simp [coversIp, triple, hip, heq]
    · by_cases hcidr : ind.type = .cidr
      · by_cases hin : ind.cidr.any (·.contains ip) <;> simp [coversIp, triple, hcidr, hin]
      · simp [coversIp, hip, hcidr]

theorem map_triple_nameMatches (inds : List Indicator) (name : Str) :
    (nameMatches { indicators := inds } name).map triple =
      (inds.filter (coversName name)).map fun ind => (ind, nameField, normalizeDomain name) := by
  unfold nameMatches
  induction inds with
  | nil => rfl
  | cons ind inds ih =>
    rw [List.flatMap_cons, List.map_append, ih, List.filter_cons]
    by_cases hdomain : ind.type = .domain
    · by_cases hmatch : domainMatches ind.normalized name <;>
        simp [coversName, triple, hdomain, hmatch]
    · by_cases hurl : ind.type = .url
      · by_cases hmatch : domainMatches (urlHost ind.normalized) name <;>
          simp [coversName, triple, hurl, hmatch]
      · simp [coversName, hdomain, hurl]

/-- The suppression by allow indicators, on reported triples. -/
def suppressTriples (ts : List (Indicator × Str × Str)) : List (Indicator × Str × Str) :=
  ts.filter fun t =>
    !(ts.any fun allow => allow.1.role = .allow && allow.2.1 == t.2.1 && allow.2.2 == t.2.2) ||
      t.1.role = .allow

theorem map_triple_suppressAllowed (out : List MatchResult) :
    (suppressAllowed out).map triple = suppressTriples (out.map triple) := by
  unfold suppressAllowed suppressTriples allowed
  rw [List.filter_map]
  simp only [List.any_map]
  rfl

theorem suppressTriples_perm {ts ts' : List (Indicator × Str × Str)} (h : ts.Perm ts') :
    (suppressTriples ts).Perm (suppressTriples ts') := by
  unfold suppressTriples
  have hany : ∀ p : Indicator × Str × Str → Bool, ts.any p = ts'.any p := by
    intro p
    rw [Bool.eq_iff_iff, List.any_eq_true, List.any_eq_true]
    simp only [h.mem_iff]
  simp only [hany]
  exact h.filter _

section Index
variable {idx : IndicatorIndex} (hs : Synced idx)
  (hnodes : nodesNeeded (activeIndicators idx.records) ≤ 2 ^ 31)
include hs hnodes

/-- **An address is looked up as a scan of the active indicators does.** -/
theorem perm_lookupIp (hranged : ∀ ind ∈ activeIndicators idx.records, Ranged ind)
    (ip : IPv4Address)
    (field : Str) :
    ((lookupIp idx ip field).map triple).Perm
      ((ipMatches { indicators := activeIndicators idx.records } ip field).map triple) := by
  rw [lookupIp_eq hs hnodes, map_triple_ipMatches, List.map_map]
  exact (perm_ipLookup hranged ip).map _

/-- **An index answers as a scan of its active indicators**, for indicators of
every type. -/
theorem perm_matchPacket (hfiled : ∀ ind ∈ activeIndicators idx.records, Filed ind)
    {md : PacketMetadata}
    (hnames : ∀ name ∈ md.domainNames, PlainName name) :
    ((IndicatorIndex.matchPacket idx md).map triple).Perm
      ((matchPacket { indicators := activeIndicators idx.records } md).map triple) := by
  have hip := perm_lookupIp hs hnodes fun ind hind => (hfiled ind hind).toRanged
  have hname : ∀ name ∈ md.domainNames, ((lookupDomain idx name nameField).map triple).Perm
      ((nameMatches { indicators := activeIndicators idx.records } name).map triple) := by
    intro name hmem
    rw [lookupDomain_eq hs, map_triple_nameMatches, List.map_map]
    exact (perm_nameLookup hfiled (hnames name hmem)).map _
  unfold IndicatorIndex.matchPacket matchPacket
  -- suppression sees the triples only, so it is enough to compare what goes into it
  rw [map_triple_suppressAllowed, map_triple_suppressAllowed]
  refine suppressTriples_perm ?_
  rw [List.map_append, List.map_append, List.map_flatMap, List.map_flatMap]
  refine List.Perm.append ?_ (List.Perm.flatMap_left _ hname)
  cases md.ipv4 with
  | none => exact List.Perm.refl _
  | some ip =>
    simp only [List.map_append]
    exact (hip ip.source sourceField).append (hip ip.destination destinationField)

end Index

/-- The run adds parsed indicators, and the trie has room for what is active. -/
theorem runFits_of_parsed {ops : List IndexOp} (hops : ∀ op ∈ ops, ∀ ind ∈ addedBy op, Parsed ind)
    (hnodes : ∀ before, before <+: ops →
      nodesNeeded (activeIndicators (indexMachine.run before).records) ≤ 2 ^ 31) : RunFits ops :=
  runFits_of_short (fun op hop ind hind =>
    (sound_of_parsed (hops op hop ind hind)).filed.shortRange) hnodes

/-- **The index refines the linear matcher.**  After any run that adds parsed
address and domain indicators and that never needs more than `2 ^ 31` nodes in
the trie, the index reports the same indicators, fields and values as a scan of
the active indicators, each as often. -/
theorem matchPacket_refines (ops : List IndexOp)
    (hops : ∀ op ∈ ops, ∀ ind ∈ addedBy op, Parsed ind)
    (hnodes : ∀ before, before <+: ops →
      nodesNeeded (activeIndicators (indexMachine.run before).records) ≤ 2 ^ 31)
    (md : PacketMetadata) (hnames : ∀ name ∈ md.domainNames, PlainName name) :
    (indexMachine.run ops).faulted = false ∧
      ((IndicatorIndex.matchPacket (indexMachine.run ops) md).map triple).Perm
        ((matchPacket { indicators := activeIndicators (indexMachine.run ops).records } md).map
          triple) :=
  ⟨(faulted_run_iff ops).mpr (runFits_of_parsed hops hnodes),
    perm_matchPacket (synced_run ops) (hnodes ops List.prefix_rfl)
      (fun ind hind => (sound_activeIndicators hops ind hind).filed) hnames⟩

/-- A pattern behind `*.`, and a compaction. -/
theorem matchPacket_refines_wildcard : ∃ ind,
    parseIndicatorLine "*.evil.io block".toList 1 = .ok ind ∧
    (indexMachine.run [.add ind, .compact]).faulted = false ∧
    ((IndicatorIndex.matchPacket (indexMachine.run [.add ind, .compact])
        { dns := some { questions := [{ name := "x.evil.io".toList }] } }).map triple).Perm
      ((matchPacket
        { indicators := activeIndicators (indexMachine.run [.add ind, .compact]).records }
        { dns := some { questions := [{ name := "x.evil.io".toList }] } }).map triple) := by
  refine ⟨_, rfl, matchPacket_refines _ ?_ ?_ _ ?_⟩
  · intro op hop ind hind
    rcases List.mem_cons.mp hop with rfl | hop
    · cases List.mem_singleton.mp hind
      exact ⟨⟨"*.evil.io block".toList, 1, rfl⟩, Or.inr (Or.inr rfl)⟩
    · cases List.mem_singleton.mp hop
      cases hind
  · refine fun before hbefore => (runFits_of_few (fun op hop ind hind path hpath => ?_) (by decide)
      before hbefore).nodes
    -- a domain is not filed in the trie
    rcases List.mem_cons.mp hop with rfl | hop
    · cases List.mem_singleton.mp hind
      cases hpath
    · cases List.mem_singleton.mp hop
      cases hind
  · intro name hname
    obtain ⟨dns, hdns, hname⟩ := PacketMetadata.mem_domainNames hname
    cases hdns
    simp only [List.mem_singleton, exists_eq_left, List.not_mem_nil, false_and, exists_false,
      or_false] at hname
    rw [← hname]
    have hspace : "x.evil.io".toList.all (fun c => !isSpace c) = true := rfl
    exact ⟨rfl, fun c hc => by simpa using List.all_eq_true.mp hspace c hc⟩

theorem parsed_subnet (path : List Bool) : Parsed (subnet path) :=
  ⟨⟨_, 0, (subnetEntry path).parseIndicatorLine_text 0⟩, Or.inr (Or.inl rfl)⟩

theorem activeIndicators_overfull : activeIndicators (indexMachine.run overfull).records =
    (NodeTrie.fullPaths 30 ++ [half false] ++ [half true]).map subnet := by
  rw [overfull_eq, activeIndicators_fill]

theorem subnet_half_mem_overfull :
    subnet (half true) ∈ activeIndicators (indexMachine.run overfull).records := by
  rw [activeIndicators_overfull]
  exact List.mem_map_of_mem (List.mem_append_right _ List.mem_cons_self)

/-- The trie has no room for the last range. -/
theorem indicator_ne_of_mem_lookupIp_overfull {ip : IPv4Address} {field : Str} {m : MatchResult}
    (hm : m ∈ lookupIp (indexMachine.run overfull) ip field) :
    m.indicator ≠ subnet (half true) := by
  have hmore := nodesNeeded_overfull
  rw [run_overfull] at hm hmore
  have hmem := mem_lookupIp_lost (synced_run crowded) nodesNeeded_crowded.le (by omega) hm
  rw [crowded, activeIndicators_fill] at hmem
  obtain ⟨path, hpath, heq⟩ := List.mem_map.mp hmem
  intro hsame
  have hhalf : path = half true :=
    subnet_injOn (length_le_of_mem_crowded hpath) (by rw [length_half]; norm_num) (heq.trans hsame)
  rw [hhalf] at hpath
  rcases List.mem_append.mp hpath with hfull | hother
  · have hlength := NodeTrie.mem_fullPaths.mp hfull
    rw [length_half] at hlength
    omega
  · exact absurd (List.mem_singleton.mp hother) (by decide)

/-- The linear matcher reports the last range for its first address. -/
theorem mem_matchPacket_overfull :
    (subnet (half true), sourceField, ipv4ToString (networkOf (half true))) ∈
      (matchPacket { indicators := activeIndicators (indexMachine.run overfull).records }
        { ipv4 := some { source := networkOf (half true) } }).map triple := by
  have hcovers : coversIp (networkOf (half true)) (subnet (half true)) = true := by
    obtain ⟨range, hrange, hcontains⟩ := contains_networkOf (half true)
    have htype : (subnet (half true)).type = .cidr := rfl
    simp [coversIp, htype, hrange, hcontains]
  have hblock : ∀ ind ∈ activeIndicators (indexMachine.run overfull).records, ind.role =
      .block := by
    intro ind hind
    rw [activeIndicators_overfull] at hind
    obtain ⟨path, -, rfl⟩ := List.mem_map.mp hind
    rfl
  unfold matchPacket
  rw [map_triple_suppressAllowed, List.map_append, List.map_append, map_triple_ipMatches,
    map_triple_ipMatches]
  refine List.mem_filter.mpr ⟨?_, ?_⟩
  · exact List.mem_append_left _ (List.mem_append_left _
      (List.mem_map_of_mem (List.mem_filter.mpr ⟨subnet_half_mem_overfull, hcovers⟩)))
  · -- no indicator allows anything
    rw [Bool.or_eq_true, Bool.not_eq_true', List.any_eq_false]
    left
    intro t ht
    have hind : t.1 ∈ activeIndicators (indexMachine.run overfull).records := by
      rcases List.mem_append.mp ht with ht | ht
      · rcases List.mem_append.mp ht with ht | ht <;>
          obtain ⟨ind, hmem, rfl⟩ := List.mem_map.mp ht <;>
          exact List.mem_of_mem_filter hmem
      · exact absurd ht List.not_mem_nil
    simp [hblock t.1 hind]

/-- All ranges are parsed from lines.  The last one needs a node whose index is no
`int`: adding it leaves the node array, and the index does not find it. -/
theorem not_matchPacket_refines_overfull :
    (∀ op ∈ overfull, ∀ ind ∈ addedBy op, Parsed ind) ∧ (indexMachine.run overfull).faulted = true ∧
      ¬ ((IndicatorIndex.matchPacket (indexMachine.run overfull)
          { ipv4 := some { source := networkOf (half true) } }).map triple).Perm
        ((matchPacket { indicators := activeIndicators (indexMachine.run overfull).records }
          { ipv4 := some { source := networkOf (half true) } }).map triple) := by
  refine ⟨fun op hop ind hind => ?_, faulted_overfull, fun hperm => ?_⟩
  · rw [overfull_eq] at hop
    obtain ⟨path, -, rfl⟩ := List.mem_map.mp hop
    rw [List.mem_singleton.mp hind]
    exact parsed_subnet path
  · obtain ⟨m, hm, htriple⟩ := List.mem_map.mp (hperm.mem_iff.mpr mem_matchPacket_overfull)
    have hind : m.indicator = subnet (half true) := congrArg Prod.fst htriple
    have hfound := List.mem_of_mem_filter hm
    rcases List.mem_append.mp hfound with hfound | hfound
    · rcases List.mem_append.mp hfound with hfound | hfound
      · exact indicator_ne_of_mem_lookupIp_overfull hfound hind
      · exact indicator_ne_of_mem_lookupIp_overfull hfound hind
    · exact absurd hfound List.not_mem_nil

end PacketGuard.Ioc
