import PacketGuard.Ioc.Refinement

/-! # The trie lookup is exact

A walk along the bits of an address reads the active address records whose range
contains it, short prefixes first and in slot order among equal prefixes.  All
nodes and slots it reads exist, as long as the trie has room for the ranges.
-/
namespace PacketGuard.Ioc
open PacketGuard.Core PacketGuard.Lib
open IndicatorIndex

/-- The range that the active address record in `slot` stands for. -/
def rangeAt (records : List IndexedIndicator) (slot : Nat) : Option CIDRRange :=
  match records[slot]? with
  | some rec =>
    if rec.active ∧ (rec.indicator.type = .ip ∨ rec.indicator.type = .cidr) then
      indexedRange rec.indicator
    else none
  | none => none

/-- The order of the answer: by prefix length, then by slot. -/
def Before (records : List IndexedIndicator) (i j : Nat) : Prop :=
  ∃ range range', rangeAt records i = some range ∧ rangeAt records j = some range' ∧
    (range.prefixLength < range'.prefixLength ∨
      (range.prefixLength = range'.prefixLength ∧ i < j))

/-- What `lookup_ip` answers, with the slots and the nodes it reads. -/
structure ExactLookup (idx : IndicatorIndex) (ip : IPv4Address) (field : Str) (slots : List Nat)
    (nodes : List Int) : Prop where
  answers : List.Forall₂
    (fun slot result => ∃ rec, idx.records[slot]? = some rec ∧
      result = ⟨rec.indicator, field, ipv4ToString ip, "stateful IOC index CIDR match".toList⟩)
    slots (lookupIp idx ip field)
  exact : ∀ slot, slot ∈ slots ↔
    ∃ range, rangeAt idx.records slot = some range ∧ range.contains ip = true
  ordered : slots.Pairwise (Before idx.records)
  read : slots = nodes.flatMap (IntTrie.recordsAt idx.cidrTrie)
  nodes_lt : ∀ node ∈ nodes, 0 ≤ node ∧ node < idx.cidrTrie.length
  slots_lt : ∀ slot ∈ slots, slot < idx.records.length

/-- The nodes that `lookup_ip` reads. -/
def lookupNodes (idx : IndicatorIndex) (ip : IPv4Address) : List Int :=
  if idx.cidrTrie.isEmpty then [] else IntTrie.nodesOn idx.cidrTrie 0 (addressBits ip.value 32)

/-- The slots that `lookup_ip` reads. -/
def lookupSlots (idx : IndicatorIndex) (ip : IPv4Address) : List Nat :=
  (lookupNodes idx ip).flatMap (IntTrie.recordsAt idx.cidrTrie)

section
variable {idx : IndicatorIndex} {ip : IPv4Address} {slot count : Nat}

theorem pathKey_eq_some {ind : Indicator} {path : List Bool} :
    pathKey ind = some path ↔ (ind.type = .ip ∨ ind.type = .cidr) ∧
      ∃ range, indexedRange ind = some range ∧
        addressBits range.network.value range.prefixLength = path := by
  unfold pathKey
  cases htype : ind.type <;> simp

/-- An entry of the trie is an active record with its range. -/
theorem mem_pathEntries {records : List IndexedIndicator} {path : List Bool} :
    (path, slot) ∈ pathEntries records ↔
      ∃ range, rangeAt records slot = some range ∧
        addressBits range.network.value range.prefixLength = path := by
  rw [pathEntries, mem_entriesOf]
  unfold rangeAt
  constructor
  · rintro ⟨ind, hmem, hpath⟩
    obtain ⟨rec, hget, hactive, rfl⟩ := mem_activeSlots.mp hmem
    obtain ⟨htype, range, hrange, hbits⟩ := pathKey_eq_some.mp hpath
    refine ⟨range, ?_, hbits⟩
    simp only [hget]
    rw [if_pos ⟨hactive, htype⟩, hrange]
  · rintro ⟨range, hrange, hbits⟩
    split at hrange
    · rename_i rec hget
      split at hrange
      · rename_i hrec
        exact ⟨rec.indicator, mem_activeSlots.mpr ⟨rec, hget, hrec.1, rfl⟩,
          pathKey_eq_some.mpr ⟨hrec.2, range, hrange, hbits⟩⟩
      · cases hrange
    · cases hrange

/-- The slots with a prefix of `count` bits that are read. -/
def slotsAt (idx : IndicatorIndex) (ip : IPv4Address) (count : Nat) : List Nat :=
  ((pathEntries idx.records).filter fun e => e.1 = addressBits ip.value count).map Prod.snd

theorem mem_slotsAt : slot ∈ slotsAt idx ip count ↔
    ∃ range, rangeAt idx.records slot = some range ∧ range.prefixLength = count ∧
      addressBits range.network.value range.prefixLength = addressBits ip.value count := by
  unfold slotsAt
  rw [List.mem_map]
  constructor
  · rintro ⟨⟨path, slot'⟩, hmem, rfl⟩
    obtain ⟨hmem, hpath⟩ := List.mem_filter.mp hmem
    obtain ⟨range, hrange, hbits⟩ := mem_pathEntries.mp hmem
    have heq := hbits.trans (of_decide_eq_true hpath)
    have hlength := congrArg List.length heq
    rw [length_addressBits, length_addressBits] at hlength
    exact ⟨range, hrange, hlength, heq⟩
  · rintro ⟨range, hrange, -, hbits⟩
    exact ⟨(_, slot), List.mem_filter.mpr
      ⟨mem_pathEntries.mpr ⟨range, hrange, rfl⟩, decide_eq_true hbits⟩, rfl⟩

/-- Equal prefixes are read in slot order. -/
theorem slotsAt_ordered : (slotsAt idx ip count).Pairwise (Before idx.records) := by
  have hsorted : (slotsAt idx ip count).Pairwise (· < ·) := by
    refine List.Pairwise.sublist ?_ (activeSlots_sorted idx.records)
    refine (List.filter_sublist.map _).trans ?_
    unfold pathEntries entriesOf
    rw [List.map_filterMap]
    simp only [Option.map_map]
    have hfst : ∀ item : Nat × Indicator,
        (pathKey item.2).map (Prod.snd ∘ fun k => (k, item.1)) = some item.1 ∨
          (pathKey item.2).map (Prod.snd ∘ fun k => (k, item.1)) = none := by
      intro item
      cases pathKey item.2 with
      | none => exact .inr rfl
      | some _ => exact .inl rfl
    induction activeSlots idx.records with
    | nil => exact List.Sublist.refl _
    | cons item items ih =>
      rw [List.filterMap_cons, List.map_cons]
      obtain h | h := hfst item
      · rw [h]
        exact ih.cons_cons _
      · rw [h]
        exact ih.cons _
  refine hsorted.imp_of_mem fun hi hj hlt => ?_
  obtain ⟨range, hrange, hcount, -⟩ := mem_slotsAt.mp hi
  obtain ⟨range', hrange', hcount', -⟩ := mem_slotsAt.mp hj
  exact ⟨range, range', hrange, hrange', .inr ⟨hcount.trans hcount'.symm, hlt⟩⟩

/-- The slots that are read, prefix length by prefix length. -/
theorem lookupSlots_eq (h : Synced idx)
    (hnodes : nodesNeeded (activeIndicators idx.records) ≤ 2 ^ 31)
    (ip : IPv4Address) : lookupSlots idx ip = (List.range 33).flatMap (slotsAt idx ip) := by
  unfold lookupSlots lookupNodes
  rcases h.trie_eq hnodes with htrie | ⟨hnil, hnone⟩
  · have hroot : idx.cidrTrie.isEmpty = false := by
      rw [htrie, List.isEmpty_eq_false_iff, ← List.length_pos_iff, IntTrie.length_ofNat]
      exact (NodeTrie.shaped_ofEntries _).root
    have hwalk : IntTrie.walk idx.cidrTrie 0 (addressBits ip.value 32) =
        NodeTrie.walk (NodeTrie.ofEntries (pathEntries idx.records)) 0
          (addressBits ip.value 32) := by
      rw [htrie]
      exact IntTrie.walk_ofNat _ 0 _
    rw [hroot, if_neg Bool.false_ne_true, ← IntTrie.walk_eq_nodesOn, hwalk, NodeTrie.walk_ofEntries,
      length_addressBits]
    refine List.flatMap_congr fun count hcount => ?_
    rw [List.mem_range] at hcount
    rw [take_addressBits ip.value (by omega)]
    rfl
  · -- nothing is filed
    rw [hnil]
    symm
    rw [List.isEmpty_nil, if_pos rfl, List.flatMap_nil, List.flatMap_eq_nil_iff]
    intro count _
    rw [slotsAt, hnone]
    rfl

theorem lookupIp_eq_slots (idx : IndicatorIndex) (ip : IPv4Address) (field : Str) :
    lookupIp idx ip field = matchesAt idx (lookupSlots idx ip) field (ipv4ToString ip)
      "stateful IOC index CIDR match".toList := by
  unfold lookupIp lookupSlots lookupNodes
  split
  · rfl
  · rw [IntTrie.walk_eq_nodesOn]

/-- Active slots all give a match. -/
theorem forall₂_matchesAt {slots : List Nat} (hactive : ∀ slot ∈ slots, idx.isActive slot = true)
    (field value reason : Str) :
    List.Forall₂ (fun slot result => ∃ rec, idx.records[slot]? = some rec ∧
      result = ⟨rec.indicator, field, value, reason⟩) slots
        (matchesAt idx slots field value reason) := by
  induction slots with
  | nil => exact .nil
  | cons slot slots ih =>
    obtain ⟨hslot, hslots⟩ := List.forall_mem_cons.mp hactive
    unfold isActive at hslot
    cases hget : idx.records[slot]? with
    | none =>
      rw [hget] at hslot
      cases hslot
    | some rec =>
      rw [hget] at hslot
      have hrec : rec.active = true := hslot
      unfold matchesAt
      rw [List.filterMap_cons]
      simp only [hget, hrec, if_true]
      exact .cons ⟨rec, hget, rfl⟩ (ih hslots)

theorem lookupNodes_lt (h : Synced idx)
    (hnodes : nodesNeeded (activeIndicators idx.records) ≤ 2 ^ 31) :
    ∀ node ∈ lookupNodes idx ip, 0 ≤ node ∧ node < idx.cidrTrie.length := by
  unfold lookupNodes
  split
  · exact fun node hnode => absurd hnode List.not_mem_nil
  · rename_i hempty
    rcases h.trie_eq hnodes with htrie | ⟨hnil, -⟩
    · have hshape := NodeTrie.shaped_ofEntries (pathEntries idx.records)
      have hread : IntTrie.nodesOn idx.cidrTrie 0 (addressBits ip.value 32) =
          (NodeTrie.nodesOn (NodeTrie.ofEntries (pathEntries idx.records)) 0
            (addressBits ip.value 32)).map Int.ofNat := by
        rw [htrie]
        exact IntTrie.nodesOn_ofNat _ 0 _
      rw [hread, htrie, IntTrie.length_ofNat]
      intro node hnode
      obtain ⟨k, hk, rfl⟩ := List.mem_map.mp hnode
      have hlt := NodeTrie.nodesOn_lt (fun i b n hchild => (hshape.inRange i b n hchild).2)
        hshape.root _ k hk
      exact ⟨Int.natCast_nonneg k, Int.ofNat_lt.mpr hlt⟩
    · exact absurd (List.isEmpty_iff.mpr hnil) hempty

theorem isActive_of_mem_lookupSlots (h : Synced idx) (hslot : slot ∈ lookupSlots idx ip) :
    idx.isActive slot = true := by
  obtain ⟨node, -, hrecords⟩ := List.mem_flatMap.mp hslot
  exact h.isActive_of_mem_recordsAt hrecords

/-- An active range is a short one. -/
theorem prefix_le_of_rangeAt (hshort : ∀ ind ∈ activeIndicators idx.records, ShortRange ind)
    {range : CIDRRange} (hrange : rangeAt idx.records slot = some range) :
    range.prefixLength ≤ 32 := by
  unfold rangeAt at hrange
  split at hrange
  · rename_i rec hget
    split at hrange
    · rename_i hrec
      have hmem : rec.indicator ∈ activeIndicators idx.records :=
        List.mem_map_of_mem (List.mem_filter.mpr ⟨List.mem_of_getElem? hget, hrec.1⟩)
      have hle := hshort _ hmem _ (pathKey_eq_some.mpr ⟨hrec.2, range, hrange, rfl⟩)
      rwa [length_addressBits] at hle
    · cases hrange
  · cases hrange

/-- **Lookups are exact** wherever the indexes follow the records and the trie has
room for them. -/
theorem Synced.exactLookup (h : Synced idx) (hfits : Fits (activeIndicators idx.records))
    (ip : IPv4Address)
    (field : Str) : ExactLookup idx ip field (lookupSlots idx ip) (lookupNodes idx ip) := by
  have hactive : ∀ slot ∈ lookupSlots idx ip, idx.isActive slot = true :=
    fun slot => isActive_of_mem_lookupSlots h
  refine ⟨?_, fun slot => ?_, ?_, rfl, lookupNodes_lt h hfits.nodes, fun slot hslot => ?_⟩
  · rw [lookupIp_eq_slots]
    exact forall₂_matchesAt hactive _ _ _
  · rw [lookupSlots_eq h hfits.nodes, List.mem_flatMap]
    constructor
    · rintro ⟨count, -, hslot⟩
      obtain ⟨range, hrange, rfl, hbits⟩ := mem_slotsAt.mp hslot
      exact ⟨range, hrange, (contains_iff range (prefix_le_of_rangeAt hfits.short hrange) ip).mpr
        hbits⟩
    · rintro ⟨range, hrange, hcontains⟩
      have hle := prefix_le_of_rangeAt hfits.short hrange
      exact ⟨range.prefixLength, List.mem_range.mpr (by omega),
        mem_slotsAt.mpr ⟨range, hrange, rfl, (contains_iff range hle ip).mp hcontains⟩⟩
  · rw [lookupSlots_eq h hfits.nodes, List.pairwise_flatMap]
    refine ⟨fun count _ => slotsAt_ordered, ?_⟩
    refine List.pairwise_lt_range.imp fun hlt i hi j hj => ?_
    obtain ⟨range, hrange, hcount, -⟩ := mem_slotsAt.mp hi
    obtain ⟨range', hrange', hcount', -⟩ := mem_slotsAt.mp hj
    exact ⟨range, range', hrange, hrange', .inl (by omega)⟩
  · have hslot := hactive slot hslot
    unfold isActive at hslot
    by_contra hge
    rw [List.getElem?_eq_none (Nat.le_of_not_lt hge)] at hslot
    cases hslot

end

/-- **`lookup_ip` is exact** after every run whose ranges have prefixes of at most
32 bits and never need more than `2 ^ 31` nodes. -/
theorem lookupIp_exact (ops : List IndexOp) (hfits : RunFits ops) (ip : IPv4Address) (field : Str) :
    (indexMachine.run ops).faulted = false ∧
      ExactLookup (indexMachine.run ops) ip field (lookupSlots (indexMachine.run ops) ip)
        (lookupNodes (indexMachine.run ops) ip) :=
  ⟨(faulted_run_iff ops).mpr hfits,
    (synced_run ops).exactLookup (hfits ops List.prefix_rfl) ip field⟩

/-- An unmasked range and an address inside it. -/
def nestedRanges : List IndexOp :=
  [.add { type := .cidr, cidr := some ⟨⟨0x0a0000ff⟩, 8⟩ },
    .add { type := .ip, ip := some ⟨0x0a000001⟩ }]

theorem lookupIp_exact_nestedRanges :
    (indexMachine.run nestedRanges).faulted = false ∧
      ExactLookup (indexMachine.run nestedRanges) ⟨0x0a000001⟩ sourceField
        (lookupSlots (indexMachine.run nestedRanges) ⟨0x0a000001⟩)
        (lookupNodes (indexMachine.run nestedRanges) ⟨0x0a000001⟩) := by
  refine lookupIp_exact nestedRanges (runFits_of_few ?_ (by decide)) _ _
  simp [nestedRanges, addedBy, ShortRange, pathKey, indexedRange, length_addressBits]

/-- Every slot of an exact lookup has its answer. -/
theorem ExactLookup.exists_answer {idx : IndicatorIndex} {ip : IPv4Address} {field : Str}
    {slots : List Nat}
    {nodes : List Int} (h : ExactLookup idx ip field slots nodes) {slot : Nat}
    (hslot : slot ∈ slots) :
    ∃ m ∈ lookupIp idx ip field, ∃ rec, idx.records[slot]? = some rec ∧
      m.indicator = rec.indicator := by
  have hanswers := h.answers
  generalize lookupIp idx ip field = results at hanswers
  clear h
  induction hanswers with
  | nil => cases hslot
  | cons hfirst _ ih =>
    obtain ⟨rec, hget, rfl⟩ := hfirst
    rcases List.mem_cons.mp hslot with rfl | hslot
    · exact ⟨_, List.mem_cons_self, rec, hget, rfl⟩
    · obtain ⟨m, hm, hrec⟩ := ih hslot
      exact ⟨m, List.mem_cons_of_mem _ hm, hrec⟩

/-- An exact lookup finds every active range around the address. -/
theorem ExactLookup.finds {idx : IndicatorIndex} {ip : IPv4Address} {field : Str} {slots : List Nat}
    {nodes : List Int} (h : ExactLookup idx ip field slots nodes) {ind : Indicator}
    (hind : ind ∈ activeIndicators idx.records) (htype : ind.type = .cidr) {range : CIDRRange}
    (hrange : ind.cidr = some range) (hcontains : range.contains ip = true) :
    ∃ m ∈ lookupIp idx ip field, m.indicator = ind := by
  obtain ⟨rec, hrec, rfl⟩ := List.mem_map.mp hind
  obtain ⟨hmem, hactive⟩ := List.mem_filter.mp hrec
  obtain ⟨slot, hget⟩ := List.mem_iff_getElem?.mp hmem
  have hat : rangeAt idx.records slot = some range := by
    unfold rangeAt
    simp only [hget]
    rw [if_pos ⟨hactive, Or.inr htype⟩, indexedRange, hrange]
  obtain ⟨m, hm, rec', hget', hsame⟩ := h.exists_answer ((h.exact slot).mpr ⟨range, hat, hcontains⟩)
  cases hget.symm.trans hget'
  exact ⟨m, hm, hsame⟩

/-- The active range that the trie has no room for is not found, and filing it
followed a child that is out of range. -/
theorem not_lookupIp_exact_overfull : (indexMachine.run overfull).faulted = true ∧
    ¬ ∃ slots nodes, ExactLookup (indexMachine.run overfull)
      (networkOf (half true)) sourceField slots nodes := by
  refine ⟨faulted_overfull, ?_⟩
  rintro ⟨slots, nodes, h⟩
  obtain ⟨range, hrange, hcontains⟩ := contains_networkOf (half true)
  obtain ⟨m, hm, hind⟩ := h.finds subnet_half_mem_overfull rfl hrange hcontains
  exact indicator_ne_of_mem_lookupIp_overfull hm hind

end PacketGuard.Ioc
