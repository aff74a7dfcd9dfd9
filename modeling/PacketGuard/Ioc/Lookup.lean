import PacketGuard.Ioc.Representation

/-! # What a lookup returns

A lookup depends on the list of active indicators and on nothing else: not on
slots, generations or inactive records.  `ipLookup`, `nameLookup` and
`hashLookup` say how.
-/
namespace PacketGuard.Ioc
open PacketGuard.Core PacketGuard.Packet PacketGuard.Lib
open IndicatorIndex

/-- The indicators that have a key, with their keys. -/
def keyed {κ : Type} (key : Indicator → Option κ) (inds : List Indicator) : List (κ × Indicator) :=
  inds.filterMap fun ind => (key ind).map fun k => (k, ind)

/-- The indicators of the ranges around `ip`: short prefixes first, and slot
order among equal prefixes. -/
def ipLookup (inds : List Indicator) (ip : IPv4Address) : List Indicator :=
  (List.range 33).flatMap fun count => valuesOf (addressBits ip.value count) (keyed pathKey inds)

/-- The indicators of the names that `observed` belongs to, name by name. -/
def nameLookup (inds : List Indicator) (observed : Str) : List Indicator :=
  (fileAll (keyed nameKey inds)).toList.flatMap fun (name, filed) =>
    if domainMatches name observed then filed else []

def hashLookup (inds : List Indicator) (digest : Str) : List Indicator :=
  valuesOf digest (keyed hashKey inds)

/-! ## From slots to indicators -/

/-- The indicator of an active slot. -/
def indicatorAt (records : List IndexedIndicator) (slot : Nat) : Option Indicator :=
  records[slot]?.bind fun rec => if rec.active then some rec.indicator else none

theorem matchesAt_eq (idx : IndicatorIndex) (slots : List Nat) (field value reason : Str) :
    matchesAt idx slots field value reason =
      (slots.filterMap (indicatorAt idx.records)).map fun ind => ⟨ind, field, value, reason⟩ := by
  unfold matchesAt
  rw [List.map_filterMap]
  congr 1
  funext slot
  unfold indicatorAt
  cases idx.records[slot]? with
  | none => rfl
  | some rec => by_cases h : rec.active <;> simp [h]

/-- The entries of an index, with the indicators in place of their slots. -/
theorem map_entriesOf {κ : Type} (key : Indicator → Option κ) (records : List IndexedIndicator) :
    (entriesOf key (activeSlots records)).map (fun e => (e.1, indicatorAt records e.2)) =
      (keyed key (activeIndicators records)).map fun e => (e.1, some e.2) := by
  rw [← map_snd_activeSlots, entriesOf, keyed, List.map_filterMap, List.filterMap_map,
    List.map_filterMap]
  apply List.filterMap_congr
  rintro ⟨slot, ind⟩ hmem
  obtain ⟨rec, hget, hactive, rfl⟩ := mem_activeSlots.mp hmem
  have hat : indicatorAt records slot = some rec.indicator := by
    simp [indicatorAt, hget, hactive]
  cases h : key rec.indicator <;> simp [h, hat]

section Values
variable {κ : Type} [DecidableEq κ] (key : Indicator → Option κ) (records : List IndexedIndicator)

theorem map_valuesOf_entriesOf (k : κ) :
    (valuesOf k (entriesOf key (activeSlots records))).map (indicatorAt records) =
      (valuesOf k (keyed key (activeIndicators records))).map some := by
  rw [← valuesOf_map, map_entriesOf, valuesOf_map]

/-- The slots under a key hold the indicators that have it. -/
theorem filterMap_valuesOf_entriesOf (k : κ) :
    (valuesOf k (entriesOf key (activeSlots records))).filterMap (indicatorAt records) =
      valuesOf k (keyed key (activeIndicators records)) := by
  have h := congrArg (List.filterMap id) (map_valuesOf_entriesOf key records k)
  rw [List.filterMap_map, List.filterMap_map] at h
  simpa [Function.comp_def] using h

end Values

/-- The index of the slots becomes the index of the indicators. -/
theorem map_fileAll_entriesOf (key : Indicator → Option Str) (records : List IndexedIndicator) :
    (fileAll (entriesOf key (activeSlots records))).map
        (fun _ slots => slots.filterMap (indicatorAt records)) =
      fileAll (keyed key (activeIndicators records)) := by
  apply Std.ExtTreeMap.ext_getElem?
  intro k
  have hnil : valuesOf k (entriesOf key (activeSlots records)) = [] ↔
      valuesOf k (keyed key (activeIndicators records)) = [] := by
    have h := congrArg List.length (map_valuesOf_entriesOf key records k)
    rw [List.length_map, List.length_map] at h
    rw [← List.length_eq_zero_iff, h, List.length_eq_zero_iff]
  rw [Std.ExtTreeMap.getElem?_map, getElem?_fileAll, getElem?_fileAll]
  by_cases h : valuesOf k (keyed key (activeIndicators records)) = []
  · rw [if_pos h, if_pos (hnil.mpr h)]
    rfl
  · rw [if_neg h, if_neg (hnil.not.mpr h), Option.map_some, filterMap_valuesOf_entriesOf]

/-! ## The lookups -/

theorem take_addressBits (value : BitVec 32) {count : Nat} (h : count ≤ 32) :
    (addressBits value 32).take count = addressBits value count := by
  rw [addressBits, addressBits, ← List.map_take, List.take_range, Nat.min_eq_left h]

/-- What the walk through the trie reads. -/
theorem filterMap_walk {idx : IndicatorIndex} (h : Synced idx)
    (hnodes : nodesNeeded (activeIndicators idx.records) ≤ 2 ^ 31) (ip : IPv4Address) :
    (IntTrie.walk idx.cidrTrie 0 (addressBits ip.value 32)).filterMap (indicatorAt idx.records) =
      ipLookup (activeIndicators idx.records) ip := by
  have hwalk : IntTrie.walk idx.cidrTrie 0 (addressBits ip.value 32) =
      NodeTrie.walk (NodeTrie.ofEntries (pathEntries idx.records)) 0 (addressBits ip.value 32) := by
    rcases h.trie_eq hnodes with htrie | ⟨hnil, hnone⟩
    · rw [htrie]
      exact IntTrie.walk_ofNat _ 0 _
    · rw [hnil, hnone, NodeTrie.walk_ofEntries, IntTrie.walk_nil]
      simp
  rw [hwalk, NodeTrie.walk_ofEntries, length_addressBits, List.filterMap_flatMap, ipLookup]
  apply List.flatMap_congr
  intro count hcount
  rw [List.mem_range] at hcount
  rw [take_addressBits ip.value (by omega)]
  exact filterMap_valuesOf_entriesOf pathKey idx.records _

theorem lookupIp_eq {idx : IndicatorIndex} (h : Synced idx)
    (hnodes : nodesNeeded (activeIndicators idx.records) ≤ 2 ^ 31) (ip : IPv4Address)
    (field : Str) :
    lookupIp idx ip field = (ipLookup (activeIndicators idx.records) ip).map fun ind =>
      ⟨ind, field, ipv4ToString ip, "stateful IOC index CIDR match".toList⟩ := by
  rw [← filterMap_walk h hnodes, ← matchesAt_eq, lookupIp]
  by_cases hempty : idx.cidrTrie.isEmpty
  · rw [if_pos hempty, List.isEmpty_iff.mp hempty, IntTrie.walk_nil]
    rfl
  · rw [if_neg hempty]

/-- `add` appends the entry of its range, if there is one. -/
theorem pathEntries_add (idx : IndicatorIndex) (ind : Indicator) :
    pathEntries (add idx ind).1.records = pathEntries idx.records ++
      ((pathKey (completeNormalized ind)).map fun p => (p, idx.records.length)).toList := by
  rw [add_records, pathEntries, activeSlots_concat, if_pos (by rfl), entriesOf_concat,
    ← pathEntries]
  rfl

/-- An entry's slot holds, after `add` as before, an active record. -/
theorem indicatorAt_add_of_mem {idx : IndicatorIndex} {e : List Bool × Nat}
    (he : e ∈ pathEntries idx.records) (ind : Indicator) :
    ∃ old ∈ activeIndicators idx.records,
      indicatorAt (add idx ind).1.records e.2 = some old := by
  obtain ⟨old, hold, -⟩ := mem_entriesOf.mp he
  obtain ⟨rec, hget, hactive, rfl⟩ := mem_activeSlots.mp hold
  refine ⟨rec.indicator,
    List.mem_map_of_mem (List.mem_filter.mpr ⟨List.mem_of_getElem? hget, hactive⟩), ?_⟩
  rw [add_records, indicatorAt,
    List.getElem?_append_left (List.getElem?_eq_some_iff.mp hget).1, hget, Option.bind_some,
    if_pos hactive]

/-- An `add` that the node array has no room for leaves it. -/
theorem cidrTrie_add_lost {idx : IndicatorIndex} (h : Synced idx)
    (hnodes : nodesNeeded (activeIndicators idx.records) ≤ 2 ^ 31) {ind : Indicator}
    (hlost : 2 ^ 31 < nodesNeeded (activeIndicators (add idx ind).1.records)) :
    ∃ path, IntTrie.staysInRange (IntTrie.ofEntries (pathEntries idx.records)) 0 path = false ∧
      (add idx ind).1.cidrTrie =
        IntTrie.insert (IntTrie.ofEntries (pathEntries idx.records)) path idx.records.length := by
  have hentries := pathEntries_add idx ind
  rw [← length_pathEntries] at hnodes hlost
  cases hpath : pathKey (completeNormalized ind) with
  | none =>
    -- nothing is filed, so nothing is lost
    rw [hpath, Option.map_none, Option.toList_none, List.append_nil] at hentries
    rw [hentries] at hlost
    omega
  | some p =>
    rw [hpath, Option.map_some, Option.toList_some] at hentries
    have hbefore : IntTrie.faults (pathEntries idx.records) = false :=
      (IntTrie.faults_ofEntries _).1.mpr hnodes
    have hafter : IntTrie.faults (pathEntries (add idx ind).1.records) = true := by
      rw [← Bool.not_eq_false, (IntTrie.faults_ofEntries _).1]
      omega
    rw [hentries, IntTrie.faults_concat, hbefore, Bool.false_or, Bool.not_eq_true'] at hafter
    refine ⟨p, hafter, ?_⟩
    rcases (synced_add h ind).trie with htrie | ⟨-, hnone⟩
    · rw [htrie, hentries, IntTrie.ofEntries_concat]
    · rw [hentries] at hnone
      exact absurd hnone (by simp)

/-- **What the trie has no room for is never found**: an indicator whose `add`
leaves the node array is not filed. -/
theorem mem_lookupIp_lost {idx : IndicatorIndex} (h : Synced idx)
    (hnodes : nodesNeeded (activeIndicators idx.records) ≤ 2 ^ 31) {ind : Indicator}
    (hlost : 2 ^ 31 < nodesNeeded (activeIndicators (add idx ind).1.records)) {ip : IPv4Address}
    {field : Str} {m : MatchResult} (hm : m ∈ lookupIp (add idx ind).1 ip field) :
    m.indicator ∈ activeIndicators idx.records := by
  obtain ⟨path, hleaves, htrie⟩ := cidrTrie_add_lost h hnodes hlost
  unfold lookupIp at hm
  split at hm
  · cases hm
  · rw [matchesAt_eq] at hm
    obtain ⟨ind', hind', rfl⟩ := List.mem_map.mp hm
    obtain ⟨slot, hslot, hat⟩ := List.mem_filterMap.mp hind'
    -- a slot that is read was filed before
    rw [htrie] at hslot
    obtain ⟨e, he, rfl⟩ := IntTrie.mem_walk_insert_of_leaves hleaves hslot
    obtain ⟨old, hold, hsame⟩ := indicatorAt_add_of_mem he ind
    rw [hsame] at hat
    cases hat
    exact hold

theorem lookupDomain_eq {idx : IndicatorIndex} (h : Synced idx) (domain field : Str) :
    lookupDomain idx domain field =
      (nameLookup (activeIndicators idx.records) (normalizeDomain domain)).map fun ind =>
        ⟨ind, field, normalizeDomain domain, "stateful IOC index domain match".toList⟩ := by
  rw [nameLookup, ← map_fileAll_entriesOf, ← h.domains, Std.ExtTreeMap.toList_map, List.flatMap_map,
    List.map_flatMap, lookupDomain]
  apply List.flatMap_congr
  rintro ⟨name, slots⟩ -
  by_cases hmatch : domainMatches name (normalizeDomain domain)
  · simp only [hmatch, if_true, matchesAt_eq]
  · simp [hmatch]

theorem lookupHash_eq {idx : IndicatorIndex} (h : Synced idx) (hash field : Str) :
    lookupHash idx hash field =
      (hashLookup (activeIndicators idx.records) (normalizeHash hash)).map fun ind =>
        ⟨ind, field, normalizeHash hash, "stateful IOC index hash match".toList⟩ := by
  rw [hashLookup, ← filterMap_valuesOf_entriesOf, lookupHash, h.hashes, getElem?_fileAll]
  by_cases hnil : valuesOf (normalizeHash hash) (entriesOf hashKey (activeSlots idx.records)) = []
  · simp [hnil]
  · simp only [if_neg hnil, matchesAt_eq]

/-- Two indexes give the same answers, in the same order, to every query. -/
structure SameAnswers (idx idx' : IndicatorIndex) : Prop where
  lookupIp : ∀ ip field, lookupIp idx ip field = lookupIp idx' ip field
  lookupDomain : ∀ domain field, lookupDomain idx domain field = lookupDomain idx' domain field
  lookupHash : ∀ hash field, lookupHash idx hash field = lookupHash idx' hash field
  matchPacket : ∀ md, IndicatorIndex.matchPacket idx md = IndicatorIndex.matchPacket idx' md

/-- **Answers depend on the active indicators only**, where the trie has room for
them. -/
theorem sameAnswers_of_active {idx idx' : IndicatorIndex} (h : Synced idx) (h' : Synced idx')
    (hnodes : nodesNeeded (activeIndicators idx.records) ≤ 2 ^ 31)
    (hactive : activeIndicators idx.records = activeIndicators idx'.records) :
    SameAnswers idx idx' := by
  have hip : ∀ ip field, IndicatorIndex.lookupIp idx ip field = IndicatorIndex.lookupIp idx' ip
      field := by
    intro ip field
    rw [lookupIp_eq h hnodes, lookupIp_eq h' (hactive ▸ hnodes), hactive]
  have hdomain : ∀ domain field,
      IndicatorIndex.lookupDomain idx domain field = IndicatorIndex.lookupDomain idx' domain
        field := by
    intro domain field
    rw [lookupDomain_eq h, lookupDomain_eq h', hactive]
  refine ⟨hip, hdomain, fun hash field => ?_, fun md => ?_⟩
  · rw [lookupHash_eq h, lookupHash_eq h', hactive]
  · simp only [IndicatorIndex.matchPacket, hip, hdomain]

end PacketGuard.Ioc
