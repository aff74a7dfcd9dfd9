import PacketGuard.Ioc.UrlHosts
import PacketGuard.Lib.Veto

/-! # What a packet shows, and what is reported of it

A packet shows its two addresses and the names of its DNS message.  Each of
these sights stands for one field and value of the reports; an indicator is
reported there when it is about the sight, unless an allow indicator is about it
as well.
-/
namespace PacketGuard.Ioc
open PacketGuard.Core PacketGuard.Packet PacketGuard.Lib

/-! ## Sights -/

/-- Something a packet shows that indicators can be about. -/
inductive Sight
  | source (ip : IPv4Address)
  | destination (ip : IPv4Address)
  | dnsName (name : Str)

def Sight.field : Sight → Str
  | .source _ => sourceField
  | .destination _ => destinationField
  | .dnsName _ => nameField

/-- The value under which the sight is reported. -/
def Sight.value : Sight → Str
  | .source ip => ipv4ToString ip
  | .destination ip => ipv4ToString ip
  | .dnsName name => normalizeDomain name

/-- The indicator is about the sight. -/
def Sight.Concerns (ind : Indicator) : Sight → Prop
  | .source ip => coversIp ip ind = true
  | .destination ip => coversIp ip ind = true
  | .dnsName name => concernsName name ind

def sights (md : PacketMetadata) : List Sight :=
  (match md.ipv4 with
    | some ip => [.source ip.source, .destination ip.destination]
    | none => []) ++
  md.domainNames.map .dnsName

/-- The packet shows, under the field and value, something the indicator is about. -/
def Shown (md : PacketMetadata) (ind : Indicator) (field value : Str) : Prop :=
  ∃ s ∈ sights md, s.field = field ∧ s.value = value ∧ s.Concerns ind

/-! ## Collecting -/

theorem reported_append {out out' : List MatchResult} {ind : Indicator} {field value : Str} :
    Reported (out ++ out') ind field value ↔ Reported out ind field value ∨
      Reported out' ind field value := by
  simp only [Reported, List.mem_append, or_and_right, exists_or]

theorem reported_flatMap {α : Type} {items : List α} {f : α → List MatchResult} {ind : Indicator}
    {field value : Str} :
    Reported (items.flatMap f) ind field value ↔ ∃ x ∈ items, Reported (f x) ind field value := by
  constructor
  · rintro ⟨m, hm, hreport⟩
    obtain ⟨x, hx, hm⟩ := List.mem_flatMap.mp hm
    exact ⟨x, hx, m, hm, hreport⟩
  · rintro ⟨x, hx, m, hm, hreport⟩
    exact ⟨m, List.mem_flatMap.mpr ⟨x, hx, hm⟩, hreport⟩

section Collected
variable {set : IndicatorSet} {ind : Indicator} {field value : Str}

theorem reported_ipMatches_iff {ip : IPv4Address} {f : Str} :
    Reported (ipMatches set ip f) ind field value ↔
      ind ∈ set.indicators ∧ f = field ∧ ipv4ToString ip = value ∧ coversIp ip ind = true := by
  have hmem : ∀ m, m ∈ ipMatches set ip f ↔ ∃ ind ∈ set.indicators,
      ((ind.type = .ip ∧ ind.ip = some ip) ∧
        m = ⟨ind, f, ipv4ToString ip, "exact IPv4 match".toList⟩) ∨
      ((ind.type = .cidr ∧ ind.cidr.any (·.contains ip)) ∧
        m = ⟨ind, f, ipv4ToString ip, "CIDR containment match".toList⟩) := by
    intro m
    simp only [ipMatches, List.mem_flatMap, List.mem_append, List.mem_ite_nil_right,
      List.mem_singleton]
  have hcovers : coversIp ip ind = true ↔
      (ind.type = .ip ∧ ind.ip = some ip) ∨ (ind.type = .cidr ∧ ind.cidr.any (·.contains ip)) :=
    decide_eq_true_iff
  rw [hcovers]
  constructor
  · rintro ⟨m, hm, rfl, rfl, rfl⟩
    obtain ⟨ind, hind, ⟨hcond, rfl⟩ | ⟨hcond, rfl⟩⟩ := (hmem m).mp hm
    · exact ⟨hind, rfl, rfl, Or.inl hcond⟩
    · exact ⟨hind, rfl, rfl, Or.inr hcond⟩
  · rintro ⟨hind, rfl, rfl, hcond | hcond⟩
    · exact ⟨_, (hmem _).mpr ⟨ind, hind, Or.inl ⟨hcond, rfl⟩⟩, rfl, rfl, rfl⟩
    · exact ⟨_, (hmem _).mpr ⟨ind, hind, Or.inr ⟨hcond, rfl⟩⟩, rfl, rfl, rfl⟩

theorem reported_nameMatches_iff {name : Str} :
    Reported (nameMatches set name) ind field value ↔
      ind ∈ set.indicators ∧ nameField = field ∧ normalizeDomain name = value ∧
        concernsName name ind := by
  constructor
  · rintro ⟨m, hm, rfl, rfl, rfl⟩
    obtain ⟨ind, hind, ⟨hcond, rfl⟩ | ⟨hcond, rfl⟩⟩ := mem_nameMatches.mp hm
    · exact ⟨hind, rfl, rfl, Or.inl hcond⟩
    · exact ⟨hind, rfl, rfl, Or.inr hcond⟩
  · rintro ⟨hind, rfl, rfl, hconcerns⟩
    exact reported_nameMatches hind hconcerns

/-- **What is collected**: every indicator of the set, wherever the packet shows
something it is about. -/
theorem reported_collected_iff {md : PacketMetadata} :
    Reported (collected set md) ind field value ↔ ind ∈ set.indicators ∧
      Shown md ind field value := by
  have hnames : Reported (md.domainNames.flatMap (nameMatches set)) ind field value ↔
      ind ∈ set.indicators ∧ ∃ s ∈ md.domainNames.map Sight.dnsName,
        s.field = field ∧ s.value = value ∧ s.Concerns ind := by
    rw [reported_flatMap]
    simp only [reported_nameMatches_iff, List.mem_map, exists_exists_and_eq_and, Sight.field,
      Sight.value, Sight.Concerns]
    constructor
    · rintro ⟨name, hname, hind, hshown⟩
      exact ⟨hind, name, hname, hshown⟩
    · rintro ⟨hind, name, hname, hshown⟩
      exact ⟨name, hname, hind, hshown⟩
  unfold collected Shown sights
  rw [reported_append, hnames]
  cases md.ipv4 with
  | none =>
    have hnone : ¬ Reported [] ind field value := fun h => by simp [Reported] at h
    simp only [hnone, false_or, List.nil_append]
  | some ip =>
    simp only [reported_append, reported_ipMatches_iff, List.mem_append, or_and_right, exists_or,
      List.mem_cons, List.not_mem_nil, or_false, exists_eq_left, Sight.field, Sight.value,
        Sight.Concerns]
    rw [← and_or_left, ← and_or_left]

end Collected

/-! ## Reporting -/

/-- The suppression by allow indicators is a veto on fields and values. -/
theorem suppressAllowed_eq (out : List MatchResult) :
    suppressAllowed out =
      survivors (fun m => decide (m.indicator.role = .allow))
        (fun m => (m.field, m.value)) out := by
  unfold suppressAllowed survivors allowed
  simp only [Bool.and_assoc]
  rfl

/-- What is reported once the allow indicators have spoken. -/
theorem reported_suppressAllowed_iff {out : List MatchResult} {ind : Indicator}
    {field value : Str} :
    Reported (suppressAllowed out) ind field value ↔
      Reported out ind field value ∧
        (ind.role = .allow ∨ ∀ a, a.role = .allow → ¬ Reported out a field value) := by
  simp only [suppressAllowed_eq, Reported, mem_survivors, decide_eq_true_eq]
  constructor
  · rintro ⟨m, ⟨hm, hkept⟩, rfl, rfl, rfl⟩
    refine ⟨⟨m, hm, rfl, rfl, rfl⟩, hkept.imp_right fun hnone a hrole => ?_⟩
    rintro ⟨m', hm', rfl, hfield, hvalue⟩
    exact hnone m' hm' hrole (by rw [hfield, hvalue])
  · rintro ⟨⟨m, hm, rfl, rfl, rfl⟩, hkept⟩
    refine ⟨m, ⟨hm, hkept.imp_right fun hnone m' hm' hrole hkey => ?_⟩, rfl, rfl, rfl⟩
    obtain ⟨hfield, hvalue⟩ := Prod.mk.inj hkey
    exact hnone m'.indicator hrole ⟨m', hm', rfl, hfield, hvalue⟩

/-- **What `match_packet` reports**: an indicator of the set, wherever the packet
shows something it is about, unless it shows there something an allow indicator of
the set is about. -/
theorem reported_matchPacket_iff_shown {set : IndicatorSet} {md : PacketMetadata} {ind : Indicator}
    {field value : Str} :
    Reported (matchPacket set md) ind field value ↔
      ind ∈ set.indicators ∧ Shown md ind field value ∧
        (ind.role = .allow ∨ ∀ a ∈ set.indicators, a.role = .allow → ¬ Shown md a field value) := by
  have hpacket : matchPacket set md = suppressAllowed (collected set md) := rfl
  rw [hpacket, reported_suppressAllowed_iff, reported_collected_iff, and_assoc]
  simp only [reported_collected_iff, not_and]
  exact and_congr_right fun _ => and_congr_right fun _ => or_congr_right
    (forall_congr' fun a => ⟨fun h ha hrole => h hrole ha, fun h hrole ha => h ha hrole⟩)

/-! ## Longer and reordered sets -/

theorem ipMatches_perm {set set' : IndicatorSet} (h : set.indicators.Perm set'.indicators)
    (ip : IPv4Address)
    (field : Str) : (ipMatches set ip field).Perm (ipMatches set' ip field) := h.flatMap_right _

theorem nameMatches_perm {set set' : IndicatorSet} (h : set.indicators.Perm set'.indicators)
    (name : Str) :
    (nameMatches set name).Perm (nameMatches set' name) := h.flatMap_right _

theorem collected_perm {set set' : IndicatorSet} (h : set.indicators.Perm set'.indicators)
    (md : PacketMetadata) :
    (collected set md).Perm (collected set' md) := by
  unfold collected
  refine List.Perm.append ?_ (List.Perm.flatMap_left _ fun name _ => nameMatches_perm h name)
  cases md.ipv4 with
  | none => exact List.Perm.refl _
  | some ip => exact (ipMatches_perm h ip.source _).append (ipMatches_perm h ip.destination _)

/-- **More indicators never add a report of an old one**: an old one is reported as
before, except where the packet shows something a new allow indicator is about. The
order of the set does not matter, and what is reported holds the allow indicators
that explain it. -/
theorem matchPacket_set_laws (inds more : List Indicator) (md : PacketMetadata) :
    (∀ ind ∈ inds, ∀ field value,
      Reported (matchPacket { indicators := inds ++ more } md) ind field value ↔
      Reported (matchPacket { indicators := inds } md) ind field value ∧
        (ind.role = .allow ∨ ∀ a ∈ more, a.role = .allow → ¬ Shown md a field value)) ∧
    (∀ inds', inds.Perm inds' →
      (matchPacket { indicators := inds } md).Perm (matchPacket { indicators := inds' } md)) ∧
    suppressAllowed (matchPacket { indicators := inds } md) =
      matchPacket { indicators := inds } md := by
  have hpacket : ∀ set, matchPacket set md = suppressAllowed (collected set md) := fun _ => rfl
  refine ⟨fun ind hind field value => ?_, fun inds' h => ?_, ?_⟩
  · simp only [reported_matchPacket_iff_shown, List.mem_append, hind, true_or, true_and, or_imp,
      forall_and]
    by_cases hrole : ind.role = .allow <;> simp [hrole, and_assoc]
  · rw [hpacket, hpacket, suppressAllowed_eq, suppressAllowed_eq]
    exact survivors_perm (collected_perm h md)
  · rw [hpacket, suppressAllowed_eq, suppressAllowed_eq]
    exact survivors_survivors

end PacketGuard.Ioc
