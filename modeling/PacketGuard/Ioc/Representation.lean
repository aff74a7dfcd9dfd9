import PacketGuard.Ioc.Subnets

/-! # The representation invariant of the index

In every run that the trie has room for, the four indexes are what a rebuild would
compute, the integrity check passes, and a key is present exactly when an active
record has it.  Until the 64-bit counter wraps, the identifier map names exactly
the records.

What the maps hold is known from `Synced`: each is filed from the records alone, in
slot order.  So the key map holds, for each key, the last of the active slots that
have it (`getElem?_keyToSlot`), and the identifier map holds, for each identifier,
its slot, which is unique while identifiers are issued in order
(`getElem?_idToSlot`).  Removing by key or by identifier is then removing the
record in that slot.

The integrity check compares child indexes with the number of nodes, cast to an
`int`.  It passes up to `2 ^ 31 - 1` nodes, and reports every child at exactly
`2 ^ 31`, where the trie is still what it should be (`validateIntegrity_iff`).
-/
namespace PacketGuard.Ioc
open PacketGuard.Core PacketGuard.Lib
open IndicatorIndex

/-! ## The identifier map -/

theorem mem_idEntries {records : List IndexedIndicator} {id slot : Nat} :
    (id, slot) ∈ idEntries records ↔ ∃ rec, records[slot]? = some rec ∧ rec.id = id := by
  unfold idEntries
  constructor
  · intro h
    obtain ⟨⟨rec, i⟩, hmem, heq⟩ := List.mem_map.mp h
    cases heq
    exact ⟨rec, List.mk_mem_zipIdx_iff_getElem?.mp hmem, rfl⟩
  · rintro ⟨rec, hget, rfl⟩
    exact List.mem_map.mpr ⟨(rec, slot), List.mk_mem_zipIdx_iff_getElem?.mpr hget, rfl⟩

theorem map_fst_idEntries (records : List IndexedIndicator) :
    (idEntries records).map Prod.fst = idsOf records := by
  unfold idEntries idsOf
  rw [List.map_map]
  conv_rhs => rw [← List.zipIdx_map_fst 0 records, List.map_map]
  rfl

/-- The map names exactly the records, while identifiers are distinct. -/
theorem getElem?_idToSlot {idx : IndicatorIndex} {n : Nat} (hs : Synced idx) (hi : Issued n idx)
    (hn : n < 2 ^ 64) {id slot : Nat} :
    idx.idToSlot[id]? = some slot ↔ ∃ rec, idx.records[slot]? = some rec ∧ rec.id = id := by
  have hnodup : ((idEntries idx.records).map Prod.fst).Nodup := by
    rw [map_fst_idEntries]
    exact (hi.sorted hn).imp fun hlt => Nat.ne_of_lt hlt
  rw [hs.ids, getElem?_enterAll_of_nodup hnodup, mem_idEntries]

theorem recordOf_eq_some {idx : IndicatorIndex} {n : Nat} (hs : Synced idx) (hi : Issued n idx)
    (hn : n < 2 ^ 64) {id slot : Nat} {rec : IndexedIndicator} :
    recordOf idx id = some (slot, rec) ↔ idx.records[slot]? = some rec ∧ rec.id = id := by
  unfold recordOf
  constructor
  · intro h
    obtain ⟨slot', hslot, h⟩ := Option.bind_eq_some_iff.mp h
    obtain ⟨rec', hrec, heq⟩ := Option.map_eq_some_iff.mp h
    cases heq
    obtain ⟨rec', hrec', hid⟩ := (getElem?_idToSlot hs hi hn).mp hslot
    rw [hrec] at hrec'
    cases hrec'
    exact ⟨hrec, hid⟩
  · rintro ⟨hrec, hid⟩
    rw [(getElem?_idToSlot hs hi hn).mpr ⟨rec, hrec, hid⟩]
    simp [hrec]

/-! ## The key map -/

/-- The record in `slot` is active and has key `key`. -/
def HasKey (idx : IndicatorIndex) (key : Str) (slot : Nat) : Prop :=
  ∃ rec, idx.records[slot]? = some rec ∧ rec.active = true ∧ indicatorKey rec.indicator = key

theorem mem_activeSlots {records : List IndexedIndicator} {slot : Nat} {ind : Indicator} :
    (slot, ind) ∈ activeSlots records ↔
      ∃ rec, records[slot]? = some rec ∧ rec.active = true ∧ rec.indicator = ind := by
  unfold activeSlots
  constructor
  · intro h
    obtain ⟨⟨rec, i⟩, hmem, heq⟩ := List.mem_filterMap.mp h
    simp only at heq
    split at heq
    · rename_i hactive
      cases heq
      exact ⟨rec, List.mk_mem_zipIdx_iff_getElem?.mp hmem, hactive, rfl⟩
    · cases heq
  · rintro ⟨rec, hget, hactive, rfl⟩
    refine List.mem_filterMap.mpr ⟨(rec, slot), List.mk_mem_zipIdx_iff_getElem?.mpr hget, ?_⟩
    simp [hactive]

theorem mem_entriesOf {κ σ : Type} {key : Indicator → Option κ} {items : List (σ × Indicator)}
    {k : κ} {s : σ} : (k, s) ∈ entriesOf key items ↔ ∃ ind, (s, ind) ∈ items ∧
    key ind = some k := by
  unfold entriesOf
  constructor
  · intro h
    obtain ⟨⟨s', ind⟩, hmem, heq⟩ := List.mem_filterMap.mp h
    obtain ⟨k', hk, heq⟩ := Option.map_eq_some_iff.mp heq
    cases heq
    exact ⟨ind, hmem, hk⟩
  · rintro ⟨ind, hmem, hk⟩
    exact List.mem_filterMap.mpr ⟨(s, ind), hmem, by simp [hk]⟩

theorem mem_keyEntries {idx : IndicatorIndex} {key : Str} {slot : Nat} :
    (key, slot) ∈ entriesOf recordKey (activeSlots idx.records) ↔ HasKey idx key slot := by
  rw [mem_entriesOf]
  constructor
  · rintro ⟨ind, hmem, hk⟩
    obtain ⟨rec, hget, hactive, rfl⟩ := mem_activeSlots.mp hmem
    exact ⟨rec, hget, hactive, Option.some.inj hk⟩
  · rintro ⟨rec, hget, hactive, rfl⟩
    exact ⟨rec.indicator, mem_activeSlots.mpr ⟨rec, hget, hactive, rfl⟩, rfl⟩

/-- The active slots increase. -/
theorem activeSlots_sorted (records : List IndexedIndicator) :
    ((activeSlots records).map Prod.fst).Pairwise (· < ·) := by
  have hsub : ((activeSlots records).map Prod.fst).Sublist (List.range records.length) := by
    induction records using List.reverseRecOn with
    | nil => exact List.Sublist.refl _
    | append_singleton records rec ih =>
      rw [activeSlots_concat, List.map_append, List.length_append, List.length_singleton,
        List.range_succ]
      refine ih.append ?_
      by_cases h : rec.active <;> simp [h]
  exact List.pairwise_lt_range.sublist hsub

theorem le_getLast_of_pairwise {l : List Nat} (h : l.Pairwise (· < ·)) {m : Nat}
    (hm : l.getLast? = some m) : ∀ x ∈ l, x ≤ m := by
  obtain ⟨front, rfl⟩ : ∃ front, l = front ++ [m] :=
    ⟨l.dropLast, (List.dropLast_append_getLast? m hm).symm⟩
  intro x hx
  rcases List.mem_append.mp hx with hx | hx
  · exact Nat.le_of_lt ((List.pairwise_append.mp h).2.2 x hx m (by simp))
  · rw [List.mem_singleton.mp hx]

/-- A key is mapped to the highest slot of the active records that have it. -/
theorem getElem?_keyToSlot {idx : IndicatorIndex} (h : Synced idx) {key : Str} {slot : Nat} :
    idx.keyToSlot[key]? = some slot ↔
      HasKey idx key slot ∧ ∀ slot', HasKey idx key slot' → slot' ≤ slot := by
  -- slots are entered in increasing order, so the last entry of a key has the highest
  have hsorted : (valuesOf key (entriesOf recordKey (activeSlots idx.records))).Pairwise
      (· < ·) := by
    refine (activeSlots_sorted idx.records).sublist ?_
    have hall : (entriesOf recordKey (activeSlots idx.records)).map Prod.snd =
        (activeSlots idx.records).map Prod.fst := by
      simp [entriesOf, recordKey]
    rw [← hall]
    exact List.filter_sublist.map _
  constructor
  · intro hslot
    refine ⟨?_, fun slot' hslot' => ?_⟩
    · rw [h.keys] at hslot
      exact mem_keyEntries.mp (mem_of_getElem?_enterAll hslot)
    · rw [h.keys, getElem?_enterAll] at hslot
      exact le_getLast_of_pairwise hsorted hslot slot'
        (mem_valuesOf.mpr (mem_keyEntries.mpr hslot'))
  · rintro ⟨hkey, hmax⟩
    obtain ⟨slot', hslot'⟩ := exists_getElem?_enterAll (mem_keyEntries.mpr hkey)
    have hkey' := mem_keyEntries.mp (mem_of_getElem?_enterAll hslot')
    have hge : slot ≤ slot' := by
      rw [getElem?_enterAll] at hslot'
      exact le_getLast_of_pairwise hsorted hslot' slot (mem_valuesOf.mpr (mem_keyEntries.mpr hkey))
    rw [h.keys, hslot', Nat.le_antisymm (hmax slot' hkey') hge]

theorem containsKey_iff {idx : IndicatorIndex} (h : Synced idx) (key : Str) :
    containsKey idx key = true ↔ ∃ slot, HasKey idx key slot := by
  unfold containsKey
  cases hslot : idx.keyToSlot[key]? with
  | none =>
    constructor
    · intro hfalse
      cases hfalse
    · rintro ⟨slot, hkey⟩
      obtain ⟨slot', hslot'⟩ := exists_getElem?_enterAll (mem_keyEntries.mpr hkey)
      rw [h.keys, hslot'] at hslot
      cases hslot
  | some slot =>
    obtain ⟨⟨rec, hget, hactive, hkey⟩, -⟩ := (getElem?_keyToSlot h).mp hslot
    refine ⟨fun _ => ⟨slot, rec, hget, hactive, hkey⟩, fun _ => ?_⟩
    simp [isActive, hget, hactive]

/-- **`remove_key` deactivates the active record with the key in the highest
slot.** -/
theorem removeKey_highest {idx : IndicatorIndex} {n : Nat} (hs : Synced idx) (hi : Issued n idx)
    (hn : n < 2 ^ 64) {key : Str} {slot : Nat} (hkey : HasKey idx key slot)
    (hmax : ∀ slot', HasKey idx key slot' → slot' ≤ slot) :
    removeKey idx key =
      (changeRecord idx slot fun rec => { rec with active := false }, true) := by
  have hslot := (getElem?_keyToSlot hs).mpr ⟨hkey, hmax⟩
  obtain ⟨rec, hget, hactive, -⟩ := hkey
  have hrec := (recordOf_eq_some hs hi hn).mpr ⟨hget, rfl⟩
  simp [removeKey, removeId, hslot, hget, hrec, hactive]

theorem removeKey_absent {idx : IndicatorIndex} (hs : Synced idx) {key : Str}
    (hnone : ∀ slot, ¬ HasKey idx key slot) : removeKey idx key = (idx, false) := by
  have hslot : idx.keyToSlot[key]? = none := by
    cases hslot : idx.keyToSlot[key]? with
    | none => rfl
    | some slot => exact absurd ((getElem?_keyToSlot hs).mp hslot).1 (hnone slot)
  simp [removeKey, hslot]

/-! ## The integrity check -/

theorem isActive_of_mem_entriesOf {κ : Type} {idx : IndicatorIndex} {key : Indicator → Option κ}
    {k : κ} {slot : Nat} (h : (k, slot) ∈ entriesOf key (activeSlots idx.records)) :
    idx.isActive slot = true := by
  obtain ⟨ind, hmem, -⟩ := mem_entriesOf.mp h
  obtain ⟨rec, hget, hactive, -⟩ := mem_activeSlots.mp hmem
  simp [isActive, hget, hactive]

/-- The slots filed at a node are those of active records. -/
theorem Synced.isActive_of_mem_recordsAt {idx : IndicatorIndex} (h : Synced idx) {i : Int}
    {slot : Nat}
    (hslot : slot ∈ IntTrie.recordsAt idx.cidrTrie i) : idx.isActive slot = true := by
  rcases h.trie with htrie | ⟨hnil, -⟩
  · rw [htrie] at hslot
    obtain ⟨⟨p, slot'⟩, he, rfl⟩ := IntTrie.mem_recordsAt_ofEntries hslot
    exact isActive_of_mem_entriesOf he
  · rw [hnil, IntTrie.recordsAt, IntTrie.nodeAt] at hslot
    split at hslot <;> cases hslot

section Trie
variable {idx : IndicatorIndex} (h : Synced idx)
    (hnodes : nodesNeeded (activeIndicators idx.records) ≤ 2 ^ 31)
include h hnodes

/-- The children of a node lie in the array. -/
theorem Synced.childOf_lt {i : Nat} (hi : i < idx.cidrTrie.length) (b : Bool) :
    IntTrie.childOf idx.cidrTrie i b < idx.cidrTrie.length := by
  rcases h.trie_eq hnodes with htrie | ⟨hnil, -⟩
  · rw [htrie, IntTrie.length_ofNat] at hi ⊢
    have hshape := NodeTrie.shaped_ofEntries (pathEntries idx.records)
    rw [IntTrie.childOf_ofNat]
    cases hchild : NodeTrie.childOf (NodeTrie.ofEntries (pathEntries idx.records)) i b with
    | none => exact Int.lt_of_lt_of_le (by decide) (Int.natCast_nonneg _)
    | some child => exact Int.ofNat_lt.mpr (hshape.inRange i b child hchild).2
  · rw [hnil] at hi
    cases hi

/-- There are as many nodes as are needed, once there is a trie. -/
theorem Synced.length_trie : idx.cidrTrie.length = nodesNeeded (activeIndicators idx.records) ∨
    (idx.cidrTrie = [] ∧ nodesNeeded (activeIndicators idx.records) = 1) := by
  rcases h.trie_eq hnodes with htrie | ⟨hnil, hnone⟩
  · left
    rw [htrie, IntTrie.length_ofNat, length_pathEntries]
  · right
    rw [← length_pathEntries, hnone]
    exact ⟨hnil, rfl⟩

/-- The check passes where the number of nodes is an `int`. -/
theorem integrityErrors_eq_nil (hfits : nodesNeeded (activeIndicators idx.records) < 2 ^ 31) :
    integrityErrors idx = [] := by
  have hsize : intOf idx.cidrTrie.length = idx.cidrTrie.length := by
    refine IntTrie.intOf_of_lt ?_
    rcases h.length_trie hnodes with hlength | ⟨hnil, -⟩
    · rwa [hlength]
    · rw [hnil]
      norm_num
  unfold integrityErrors
  rw [List.append_eq_nil_iff, List.append_eq_nil_iff, List.flatMap_eq_nil_iff,
    List.flatMap_eq_nil_iff, List.flatMap_eq_nil_iff]
  -- in the order of the check: identifiers, keys, nodes of the trie
  refine ⟨⟨?_, ?_⟩, ?_⟩
  · rintro ⟨id, slot⟩ hmem
    have hget := Std.ExtTreeMap.mem_toList_iff_getElem?_eq_some.mp hmem
    rw [h.ids] at hget
    obtain ⟨rec, hrec, hid⟩ := mem_idEntries.mp (mem_of_getElem?_enterAll hget)
    refine if_pos ?_
    rw [hrec, Option.map_some, hid]
  · rintro ⟨key, slot⟩ hmem
    have hget := Std.ExtTreeMap.mem_toList_iff_getElem?_eq_some.mp hmem
    rw [h.keys] at hget
    exact if_pos (isActive_of_mem_entriesOf (mem_of_getElem?_enterAll hget))
  · rintro ⟨node, i⟩ hmem
    have hget : idx.cidrTrie[i]? = some node := List.mk_mem_zipIdx_iff_getElem?.mp hmem
    have hnode : IntTrie.nodeAt idx.cidrTrie i = some node := by
      rw [IntTrie.nodeAt, if_pos (Int.natCast_nonneg i), Int.toNat_natCast, hget]
    rw [List.append_eq_nil_iff, List.flatMap_eq_nil_iff, List.flatMap_eq_nil_iff]
    constructor
    · intro branch _
      have hchild := h.childOf_lt hnodes (List.getElem?_eq_some_iff.mp hget).1 branch
      rw [IntTrie.childOf, hnode] at hchild
      rw [hsize]
      exact if_pos hchild
    · intro slot hslot
      have hat : slot ∈ IntTrie.recordsAt idx.cidrTrie i := by
        rw [IntTrie.recordsAt, hnode]
        exact hslot
      exact if_pos (h.isActive_of_mem_recordsAt hat)

/-- With one node more the number of nodes is cut to a negative `int`, and the
check reports the root. -/
theorem integrityErrors_ne_nil (hfull : nodesNeeded (activeIndicators idx.records) = 2 ^ 31) :
    integrityErrors idx ≠ [] := by
  rcases h.trie_eq hnodes with htrie | ⟨-, hnone⟩
  · have hlength : idx.cidrTrie.length = 2 ^ 31 := by
      rw [htrie, IntTrie.length_ofNat, length_pathEntries, hfull]
    have hroot := (NodeTrie.shaped_ofEntries (pathEntries idx.records)).root
    have hget : idx.cidrTrie[0]? =
        some (IntTrie.ofNode ((NodeTrie.ofEntries (pathEntries idx.records)).get ⟨0, hroot⟩)) := by
      rw [htrie, IntTrie.ofNat, List.getElem?_map, List.getElem?_eq_getElem hroot]
      rfl
    have hchild : ∀ (n : TrieNode Nat) (b : Bool), ¬ (IntTrie.ofNode n).child b <
        intOf (2 ^ 31) := by
      intro n b hlt
      have hbound : -1 ≤ (IntTrie.ofNode n).child b := by
        change -1 ≤ (n.child b).elim (-1) Int.ofNat
        cases n.child b with
        | none => exact Int.le_refl (-1)
        | some k => exact Int.le_trans (by decide) (Int.natCast_nonneg k)
      rw [IntTrie.intOf_two_pow] at hlt
      omega
    unfold integrityErrors
    rw [hlength, Ne, List.append_eq_nil_iff, not_and_or]
    right
    rw [List.flatMap_eq_nil_iff]
    intro hall
    have hreport := hall (_, 0) (List.mk_mem_zipIdx_iff_getElem?.mpr hget)
    rw [List.append_eq_nil_iff, List.flatMap_eq_nil_iff] at hreport
    have hbranch := hreport.1 false List.mem_cons_self
    rw [if_neg (hchild _ _)] at hbranch
    cases hbranch
  · have hroot : (NodeTrie.ofEntries ([] : List (List Bool × Nat))).length = 1 := rfl
    rw [← length_pathEntries, hnone, hroot] at hfull
    norm_num at hfull

/-- **The integrity check passes exactly below `2 ^ 31` nodes.** -/
theorem validateIntegrity_iff :
    (validateIntegrity idx).1 = true ↔ nodesNeeded (activeIndicators idx.records) < 2 ^ 31 := by
  rw [validateIntegrity, List.isEmpty_iff]
  constructor
  · intro hnil
    by_contra hmany
    exact integrityErrors_ne_nil h hnodes (by omega) hnil
  · exact integrityErrors_eq_nil h hnodes

end Trie

/-! ## The invariant -/

/-- The indexes are what a rebuild would compute, and the keys are those of the
active records.  An empty trie stands for a lone empty root. -/
structure IndexesCurrent (idx : IndicatorIndex) : Prop where
  keys : idx.keyToSlot = (rebuildIndexes idx).keyToSlot
  domains : idx.domains = (rebuildIndexes idx).domains
  hashes : idx.hashes = (rebuildIndexes idx).hashes
  trie : idx.cidrTrie = (rebuildIndexes idx).cidrTrie ∨
    (idx.cidrTrie = [] ∧ (rebuildIndexes idx).cidrTrie = [IntNode.empty])
  keyPresent : ∀ key, containsKey idx key = true ↔ ∃ slot, HasKey idx key slot

/-- The identifier map names exactly the records, identifiers increase with the
slot, and `remove_key` deactivates the highest active record with the key. -/
structure IdentifiersCurrent (idx : IndicatorIndex) : Prop where
  map : ∀ id slot : Nat, idx.idToSlot[id]? = some slot ↔
    ∃ rec, idx.records[slot]? = some rec ∧ rec.id = id
  sorted : (idsOf idx.records).Pairwise (· < ·)
  removeKey_present : ∀ (key : Str) (slot : Nat), HasKey idx key slot →
    (∀ slot', HasKey idx key slot' → slot' ≤ slot) →
    removeKey idx key = (changeRecord idx slot fun rec => { rec with active := false }, true)
  removeKey_missing : ∀ key : Str, (∀ slot, ¬ HasKey idx key slot) →
    removeKey idx key = (idx, false)

/-- The whole representation invariant: the counter is above every identifier,
the integrity check passes, and nothing without a defined effect was done. -/
structure RepresentationInvariant (idx : IndicatorIndex) : Prop
    extends IndexesCurrent idx, IdentifiersCurrent idx where
  below : ∀ id ∈ idsOf idx.records, id < idx.nextId
  integrity : (validateIntegrity idx).1 = true
  defined : idx.faulted = false

theorem indexesCurrent_of_synced {idx : IndicatorIndex} (h : Synced idx) : IndexesCurrent idx where
  keys := by rw [rebuildIndexes_eq, h.keys]
  domains := by rw [rebuildIndexes_eq, h.domains]
  hashes := by rw [rebuildIndexes_eq, h.hashes]
  trie := by
    rw [rebuildIndexes_eq]
    rcases h.trie with htrie | ⟨hnil, hnone⟩
    · exact Or.inl htrie
    · exact Or.inr ⟨hnil, by rw [hnone]; rfl⟩
  keyPresent := containsKey_iff h

theorem identifiersCurrent_of_issued {idx : IndicatorIndex} {n : Nat} (hs : Synced idx)
    (hi : Issued n idx) (hn : n < 2 ^ 64) : IdentifiersCurrent idx where
  map _ _ := getElem?_idToSlot hs hi hn
  sorted := hi.sorted hn
  removeKey_present _ _ := removeKey_highest hs hi hn
  removeKey_missing _ := removeKey_absent hs

/-- **The representation invariant.**  In every run that the trie has room for,
the indexes are current and the integrity check passes below `2 ^ 31` nodes; in
runs that add fewer than `2 ^ 64` indicators the identifiers are current, too;
and the counter is above every identifier as long as it has not wrapped. -/
theorem indexMachine_representation (ops : List IndexOp) (hfits : RunFits ops) :
    ((indexMachine.run ops).faulted = false ∧ IndexesCurrent (indexMachine.run ops)) ∧
      ((validateIntegrity (indexMachine.run ops)).1 = true ↔
        nodesNeeded (activeIndicators (indexMachine.run ops).records) < 2 ^ 31) ∧
      (addCount ops < 2 ^ 64 → IdentifiersCurrent (indexMachine.run ops)) ∧
      (addCount ops + 1 < 2 ^ 64 →
        nodesNeeded (activeIndicators (indexMachine.run ops).records) < 2 ^ 31 →
        RepresentationInvariant (indexMachine.run ops)) := by
  have hs := synced_run ops
  have hi := issued_run ops
  have hdefined := (faulted_run_iff ops).mpr hfits
  have hchecks := validateIntegrity_iff hs (hfits ops List.prefix_rfl).nodes
  refine ⟨⟨hdefined, indexesCurrent_of_synced hs⟩, hchecks, identifiersCurrent_of_issued hs hi,
    fun hn hfew => ?_⟩
  have hbelow : ∀ id ∈ idsOf (indexMachine.run ops).records,
      id < (indexMachine.run ops).nextId := by
    intro id hid
    have hrange := hi.range (by omega) id hid
    have hnext := hi.next
    omega
  exact ⟨indexesCurrent_of_synced hs, identifiersCurrent_of_issued hs hi (by omega), hbelow,
    hchecks.mpr hfew,
    hdefined⟩

/-- Add an indicator, remove it and drop its record, `n` times over, and add it
once more.  An indicator in normal form is removed by its key, so there is never
more than one record. -/
def addedAgain (ind : Indicator) (n : Nat) : List IndexOp :=
  (List.replicate n [.add ind, .removeKey (indicatorKey ind), .compact]).flatten ++ [.add ind]

theorem addCount_addedAgain (ind : Indicator) (n : Nat) : addCount (addedAgain ind n) = n + 1 := by
  have hcycles : ∀ n, addCount
      (List.replicate n [.add ind, .removeKey (indicatorKey ind), .compact]).flatten = n := by
    intro n
    induction n with
    | zero => rfl
    | succ n ih =>
      have hcycle : addCount [.add ind, .removeKey (indicatorKey ind), .compact] = 1 := rfl
      rw [List.replicate_succ, List.flatten_cons, addCount_append, ih, hcycle, Nat.add_comm]
  rw [addedAgain, addCount_append, hcycles]
  rfl

/-- The counter that has wrapped to 0 is below every identifier. -/
theorem not_below_addedAgain (ind : Indicator) {n : Nat} (hn : n + 2 = 2 ^ 64) :
    ¬ ∀ id ∈ idsOf (indexMachine.run (addedAgain ind n)).records,
      id < (indexMachine.run (addedAgain ind n)).nextId := by
  intro hbelow
  have hnext := (issued_run (addedAgain ind n)).next
  rw [addCount_addedAgain] at hnext
  have hlast : (idsOf (indexMachine.run (addedAgain ind n)).records) ≠ [] := by
    rw [addedAgain, indexMachine.run_concat]
    change idsOf (add _ ind).1.records ≠ []
    rw [add_records]
    simp [idsOf]
  obtain ⟨id, hid⟩ := List.exists_mem_of_ne_nil _ hlast
  have hlt := hbelow id hid
  omega

/-- At `2 ^ 31` nodes the integrity check fails, and after `2 ^ 64 - 1` adds the
counter has wrapped. -/
theorem not_representationInvariant_crowded :
    ((indexMachine.run crowded).faulted = false ∧
        ¬ RepresentationInvariant (indexMachine.run crowded)) ∧
      ¬ RepresentationInvariant (indexMachine.run
        (addedAgain { type := .domain, normalized := "evil.example".toList } (2 ^ 64 - 2))) := by
  refine ⟨⟨(faulted_run_iff crowded).mpr runFits_crowded, fun h => ?_⟩, fun h =>
    not_below_addedAgain _ (by norm_num) h.below⟩
  have hfew := (validateIntegrity_iff (synced_run crowded) nodesNeeded_crowded.le).mp h.integrity
  rw [nodesNeeded_crowded] at hfew
  omega

/-- Two records of one key, an inactive one between them, and a range. -/
theorem indexMachine_representation_sameKey :
    let ops : List IndexOp :=
      [.add { type := .domain, normalized := "evil.example".toList },
        .add { type := .cidr, cidr := some ⟨⟨0x0a000000⟩, 8⟩ }, .removeId 2,
        .add { type := .domain, normalized := "evil.example".toList }]
    ((indexMachine.run ops).faulted = false ∧ IndexesCurrent (indexMachine.run ops)) ∧
      ((validateIntegrity (indexMachine.run ops)).1 = true ↔
        nodesNeeded (activeIndicators (indexMachine.run ops).records) < 2 ^ 31) ∧
      (addCount ops < 2 ^ 64 → IdentifiersCurrent (indexMachine.run ops)) ∧
      (addCount ops + 1 < 2 ^ 64 →
        nodesNeeded (activeIndicators (indexMachine.run ops).records) < 2 ^ 31 →
        RepresentationInvariant (indexMachine.run ops)) := by
  refine indexMachine_representation _ (runFits_of_few ?_ (by decide))
  simp [addedBy, ShortRange, pathKey, indexedRange, length_addressBits]

end PacketGuard.Ioc
