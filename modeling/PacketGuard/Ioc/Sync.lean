import PacketGuard.Ioc.Step

/-! # The indexes follow the records

`add` updates the indexes of an `IndicatorIndex` slot by slot, every other
operation rebuilds them.  Both leave the indexes that are read off the active
records, in slot order: `Synced` says so, and every operation keeps it.
-/
namespace PacketGuard.Ioc
open PacketGuard.Core PacketGuard.Packet PacketGuard.Lib
open IndicatorIndex

/-! ## What the indexes hold -/

/-- The active records, as slots with their indicators, in slot order. -/
def activeSlots (records : List IndexedIndicator) : List (Nat × Indicator) :=
  records.zipIdx.filterMap fun (rec, slot) =>
    if rec.active then some (slot, rec.indicator) else none

/-- The entries of an index that files an indicator under `key`. -/
def entriesOf {κ σ : Type} (key : Indicator → Option κ) (items : List (σ × Indicator)) :
    List (κ × σ) :=
  items.filterMap fun item => (key item.2).map fun k => (k, item.1)

/-- The name a domain or URL indicator is filed under. -/
def nameKey (ind : Indicator) : Option Str :=
  match ind.type with
  | .domain | .url => some (indexedDomain ind)
  | _ => none

/-- The digest a hash indicator is filed under. -/
def hashKey (ind : Indicator) : Option Str :=
  match ind.type with
  | .hash => some (normalizeHash ind.normalized)
  | _ => none

/-- The path in the trie an address indicator is filed at. -/
def pathKey (ind : Indicator) : Option (List Bool) :=
  match ind.type with
  | .ip | .cidr =>
    (indexedRange ind).map fun range => addressBits range.network.value range.prefixLength
  | _ => none

/-- Every record has a key. -/
def recordKey (ind : Indicator) : Option Str := some (indicatorKey ind)

/-- The identifiers of all records, with their slots. -/
def idEntries (records : List IndexedIndicator) : List (Nat × Nat) :=
  records.zipIdx.map fun (rec, slot) => (rec.id, slot)

/-- The indicators of the active records, in slot order. -/
def activeIndicators (records : List IndexedIndicator) : List Indicator :=
  (records.filter (·.active)).map IndexedIndicator.indicator

/-- The entries of the trie. -/
def pathEntries (records : List IndexedIndicator) : List (List Bool × Nat) :=
  entriesOf pathKey (activeSlots records)

/-- Filing the entries has no defined effect in the source: a path is too long,
or a filing leaves the node array. -/
def unsound (entries : List (List Bool × Nat)) : Bool :=
  entries.any (fun e => decide (32 < e.1.length)) || IntTrie.faults entries

/-- The indexes are those of the active records; until the first address
indicator is filed, the trie may be an empty array instead of a lone root.  A
trie that could not be filed is noted. -/
structure Synced (idx : IndicatorIndex) : Prop where
  ids : idx.idToSlot = enterAll (idEntries idx.records)
  keys : idx.keyToSlot = enterAll (entriesOf recordKey (activeSlots idx.records))
  domains : idx.domains = fileAll (entriesOf nameKey (activeSlots idx.records))
  hashes : idx.hashes = fileAll (entriesOf hashKey (activeSlots idx.records))
  trie : idx.cidrTrie = IntTrie.ofEntries (pathEntries idx.records) ∨
    (idx.cidrTrie = [] ∧ pathEntries idx.records = [])
  noted : unsound (pathEntries idx.records) = true → idx.faulted = true

/-! ## One more record -/

theorem activeSlots_concat (records : List IndexedIndicator) (rec : IndexedIndicator) :
    activeSlots (records ++ [rec]) =
      activeSlots records ++ if rec.active then [(records.length, rec.indicator)] else [] := by
  rw [activeSlots, List.zipIdx_append, List.filterMap_append, activeSlots]
  by_cases h : rec.active <;> simp [h]

theorem map_snd_activeSlots (records : List IndexedIndicator) :
    (activeSlots records).map Prod.snd = activeIndicators records := by
  induction records using List.reverseRecOn with
  | nil => rfl
  | append_singleton records rec ih =>
    rw [activeSlots_concat, List.map_append, ih]
    by_cases h : rec.active <;> simp [activeIndicators, h]

theorem map_fst_entriesOf {κ : Type} (key : Indicator → Option κ)
    (records : List IndexedIndicator) :
    (entriesOf key (activeSlots records)).map Prod.fst =
      (activeIndicators records).filterMap key := by
  rw [← map_snd_activeSlots, entriesOf, List.map_filterMap, List.filterMap_map]
  apply List.filterMap_congr
  rintro ⟨slot, ind⟩ -
  cases h : key ind <;> simp [h]

theorem idEntries_concat (records : List IndexedIndicator) (rec : IndexedIndicator) :
    idEntries (records ++ [rec]) = idEntries records ++ [(rec.id, records.length)] := by
  simp [idEntries, List.zipIdx_append]

theorem entriesOf_concat {κ σ : Type} (key : Indicator → Option κ) (items : List (σ × Indicator))
    (item : σ × Indicator) :
    entriesOf key (items ++ [item]) =
      entriesOf key items ++ ((key item.2).map fun k => (k, item.1)).toList := by
  cases h : key item.2 <;> simp [entriesOf, h]

/-- File `slot` under the key, if there is one. -/
def fileAt (m : Multimap Str Nat) (key : Option Str) (slot : Nat) : Multimap Str Nat :=
  key.elim m fun k => Multimap.push m k slot

/-- The trie with a root. -/
def rooted (trie : IntTrie Nat) : IntTrie Nat := if trie.isEmpty then [IntNode.empty] else trie

/-- File `slot` at the path, if there is one. -/
def insertAt (trie : IntTrie Nat) (path : Option (List Bool)) (slot : Nat) : IntTrie Nat :=
  path.elim trie fun p => IntTrie.insert (rooted trie) p slot

/-- Filing at the path, if there is one, has no defined effect. -/
def faultAt (trie : IntTrie Nat) (path : Option (List Bool)) : Bool :=
  path.elim false fun p => decide (32 < p.length) || !IntTrie.staysInRange (rooted trie) 0 p

/-- **What `index_record` does**: it files the slot of an active record in the
index of its type. -/
theorem indexRecord_eq {idx : IndicatorIndex} {slot : Nat} {rec : IndexedIndicator}
    (h : idx.records[slot]? = some rec) (hactive : rec.active = true) :
    indexRecord idx slot =
      { idx with
        domains := fileAt idx.domains (nameKey rec.indicator) slot
        hashes := fileAt idx.hashes (hashKey rec.indicator) slot
        cidrTrie := insertAt idx.cidrTrie (pathKey rec.indicator) slot
        faulted := faultAt idx.cidrTrie (pathKey rec.indicator) || idx.faulted } := by
  unfold indexRecord
  simp only [h, hactive, Bool.not_true, Bool.false_eq_true, if_false]
  cases htype : rec.indicator.type <;> simp only [nameKey, hashKey, pathKey, htype] <;>
    first
      | rfl
      | (cases hrange : indexedRange rec.indicator <;> rfl)

theorem fileAll_entriesOf_concat (key : Indicator → Option Str) (items : List (Nat × Indicator))
    (item : Nat × Indicator) :
    fileAll (entriesOf key (items ++ [item])) =
      fileAt (fileAll (entriesOf key items)) (key item.2) item.1 := by
  rw [entriesOf_concat]
  cases h : key item.2 with
  | none => simp [fileAt]
  | some k => exact fileAll_concat _ _

theorem rooted_ofEntries (entries : List (List Bool × Nat)) :
    rooted (IntTrie.ofEntries entries) = IntTrie.ofEntries entries := by
  have hne : (IntTrie.ofEntries entries).isEmpty = false :=
    List.isEmpty_eq_false_iff.mpr (IntTrie.ofEntries_ne_nil entries)
  rw [rooted, hne, if_neg Bool.false_ne_true]

section Trie
variable (items : List (Nat × Indicator)) (item : Nat × Indicator)

theorem ofEntries_entriesOf_concat :
    IntTrie.ofEntries (entriesOf pathKey (items ++ [item])) =
      insertAt (IntTrie.ofEntries (entriesOf pathKey items)) (pathKey item.2) item.1 := by
  rw [entriesOf_concat]
  cases h : pathKey item.2 with
  | none => simp [insertAt]
  | some p =>
    rw [insertAt, Option.elim_some, rooted_ofEntries]
    exact IntTrie.ofEntries_concat _ _

theorem unsound_entriesOf_concat :
    unsound (entriesOf pathKey (items ++ [item])) =
      (unsound (entriesOf pathKey items) ||
        faultAt (IntTrie.ofEntries (entriesOf pathKey items)) (pathKey item.2)) := by
  rw [entriesOf_concat]
  cases h : pathKey item.2 with
  | none => simp [faultAt]
  | some p =>
    rw [faultAt, Option.elim_some, rooted_ofEntries, unsound, Option.map_some, Option.toList_some,
      IntTrie.faults_concat, List.any_append, List.any_cons, List.any_nil, Bool.or_false, unsound]
    simp only [Bool.or_assoc, Bool.or_left_comm]

end Trie

/-! ## Rebuilding -/

/-- `idx` with the indexes of the active records among the first `n`. -/
def indexed (idx : IndicatorIndex) (n : Nat) : IndicatorIndex :=
  { idx with
    keyToSlot := enterAll (entriesOf recordKey (activeSlots (idx.records.take n)))
    domains := fileAll (entriesOf nameKey (activeSlots (idx.records.take n)))
    hashes := fileAll (entriesOf hashKey (activeSlots (idx.records.take n)))
    cidrTrie := IntTrie.ofEntries (pathEntries (idx.records.take n))
    faulted := unsound (pathEntries (idx.records.take n)) || idx.faulted }

theorem reindexSlot_indexed (idx : IndicatorIndex) {n : Nat} (hn : n < idx.records.length) :
    reindexSlot (indexed idx n) n = indexed idx (n + 1) := by
  have hget : (indexed idx n).records[n]? = some idx.records[n] := List.getElem?_eq_getElem hn
  have htake : activeSlots (idx.records.take (n + 1)) = activeSlots (idx.records.take n) ++
      if idx.records[n].active then [(n, idx.records[n].indicator)] else [] := by
    rw [List.take_succ_eq_append_getElem hn, activeSlots_concat, List.length_take,
      Nat.min_eq_left (Nat.le_of_lt hn)]
  unfold reindexSlot
  simp only [hget]
  by_cases hactive : idx.records[n].active
  · simp only [hactive, if_true] at htake
    rw [if_neg (by simp [hactive])]
    rw [indexRecord_eq (by exact hget) hactive]
    unfold indexed
    rw [pathEntries, pathEntries, htake, fileAll_entriesOf_concat, fileAll_entriesOf_concat,
      ofEntries_entriesOf_concat, unsound_entriesOf_concat, entriesOf_concat]
    congr 1
    · exact (enterAll_concat (entriesOf recordKey (activeSlots (idx.records.take n)))
        (indicatorKey idx.records[n].indicator, n)).symm
    · rw [← Bool.or_assoc, Bool.or_comm (faultAt _ _)]
  · simp only [hactive] at htake
    rw [if_pos (by simp [hactive])]
    unfold indexed pathEntries
    rw [htake]
    simp

/-- **Rebuilding reads the indexes off the active records.** -/
theorem rebuildIndexes_eq (idx : IndicatorIndex) :
    rebuildIndexes idx =
      { idx with
        keyToSlot := enterAll (entriesOf recordKey (activeSlots idx.records))
        domains := fileAll (entriesOf nameKey (activeSlots idx.records))
        hashes := fileAll (entriesOf hashKey (activeSlots idx.records))
        cidrTrie := IntTrie.ofEntries (pathEntries idx.records)
        faulted := unsound (pathEntries idx.records) || idx.faulted } := by
  -- after `n` turns the indexes are those of the first `n` records
  have hloop : ∀ n ≤ idx.records.length,
      (List.range n).foldl reindexSlot (indexed idx 0) = indexed idx n := by
    intro n
    induction n with
    | zero => exact fun _ => rfl
    | succ n ih =>
      intro hn
      rw [List.range_succ, List.foldl_append, ih (by omega)]
      exact reindexSlot_indexed idx hn
  have hstart : indexed idx 0 =
      { idx with keyToSlot := ∅, domains := ∅, hashes := ∅, cidrTrie := [IntNode.empty] } := rfl
  rw [rebuildIndexes, ← hstart, hloop _ (Nat.le_refl _), indexed, List.take_length]

theorem synced_rebuildIndexes {idx : IndicatorIndex}
    (hids : idx.idToSlot = enterAll (idEntries idx.records)) : Synced (rebuildIndexes idx) := by
  rw [rebuildIndexes_eq]
  refine ⟨hids, rfl, rfl, rfl, Or.inl rfl, fun hunsound => ?_⟩
  rw [hunsound, Bool.true_or]

/-! ## Every operation keeps the indexes -/

theorem synced_init : Synced {} :=
  ⟨rfl, rfl, rfl, rfl, Or.inr ⟨rfl, rfl⟩, fun hunsound => absurd hunsound Bool.false_ne_true⟩

/-- An empty trie stands for a lone root. -/
theorem Synced.faultAt_trie {idx : IndicatorIndex} (h : Synced idx) (path : Option (List Bool)) :
    faultAt idx.cidrTrie path = faultAt (IntTrie.ofEntries (pathEntries idx.records)) path := by
  rcases h.trie with htrie | ⟨hnil, hnone⟩
  · rw [htrie]
  · rw [hnil, hnone]
    rfl

theorem synced_add {idx : IndicatorIndex} (h : Synced idx) (ind : Indicator) :
    Synced (add idx ind).1 := by
  have hget : (idx.records ++ [(⟨idx.nextId, idx.generation, true, completeNormalized ind⟩ :
      IndexedIndicator)])[idx.records.length]? =
      some ⟨idx.nextId, idx.generation, true, completeNormalized ind⟩ := by simp
  unfold add
  simp only
  rw [indexRecord_eq (by exact hget) rfl]
  have hslots : activeSlots (idx.records ++
      [⟨idx.nextId, idx.generation, true, completeNormalized ind⟩]) =
      activeSlots idx.records ++ [(idx.records.length, completeNormalized ind)] :=
    activeSlots_concat _ _
  -- each index of the longer list is the old one with one more entry
  constructor
  · rw [idEntries_concat]
    simp only [h.ids]
    exact (enterAll_concat (idEntries idx.records) (idx.nextId, idx.records.length)).symm
  · simp only [hslots, entriesOf_concat, h.keys]
    exact (enterAll_concat (entriesOf recordKey (activeSlots idx.records))
      (indicatorKey (completeNormalized ind), idx.records.length)).symm
  · simp only [hslots, fileAll_entriesOf_concat, h.domains]
  · simp only [hslots, fileAll_entriesOf_concat, h.hashes]
  · simp only [pathEntries, hslots]
    rcases h.trie with htrie | ⟨hnil, hnone⟩
    · left
      rw [ofEntries_entriesOf_concat, htrie, pathEntries]
    · -- the first address indicator makes the root
      rw [hnil, entriesOf_concat, ← pathEntries, hnone]
      cases hpath : pathKey (completeNormalized ind) with
      | none => exact Or.inr ⟨rfl, by simp⟩
      | some p => exact Or.inl rfl
  · simp only [pathEntries, hslots, unsound_entriesOf_concat]
    rw [← pathEntries, h.faultAt_trie, Bool.or_eq_true, Bool.or_eq_true]
    rintro (hold | hnew)
    · exact Or.inr (h.noted hold)
    · exact Or.inl hnew

theorem idEntries_modify (records : List IndexedIndicator) (slot : Nat)
    {f : IndexedIndicator → IndexedIndicator} (hf : ∀ rec, (f rec).id = rec.id) :
    idEntries (records.modify slot f) = idEntries records := by
  apply List.ext_getElem?
  intro i
  simp only [idEntries, List.getElem?_map, List.getElem?_zipIdx, List.getElem?_modify]
  by_cases h : slot = i <;> cases records[i]? <;> simp [h, hf]

theorem synced_changeRecord {idx : IndicatorIndex} (h : Synced idx) (slot : Nat)
    {f : IndexedIndicator → IndexedIndicator} (hf : ∀ rec, (f rec).id = rec.id) :
    Synced (changeRecord idx slot f) :=
  synced_rebuildIndexes (by rw [idEntries_modify _ _ (by exact hf)]; exact h.ids)

/-- The loop of `rebuild` over the identifiers. -/
theorem foldl_enterId (records : List IndexedIndicator) :
    (List.range records.length).foldl (enterId records) ∅ = enterAll (idEntries records) := by
  have hloop : ∀ n ≤ records.length,
      (List.range n).foldl (enterId records) ∅ = enterAll (idEntries (records.take n)) := by
    intro n
    induction n with
    | zero => exact fun _ => rfl
    | succ n ih =>
      intro hn
      have hlt : n < records.length := by omega
      rw [List.range_succ, List.foldl_append, ih (by omega), List.take_succ_eq_append_getElem hlt,
        idEntries_concat, List.length_take, Nat.min_eq_left (by omega)]
      simp only [List.foldl_cons, List.foldl_nil, enterId, List.getElem?_eq_getElem hlt]
      exact (enterAll_concat (idEntries (records.take n)) (records[n].id, n)).symm
  rw [hloop _ (Nat.le_refl _), List.take_length]

theorem synced_rebuild (idx : IndicatorIndex) : Synced (rebuild idx) := by
  have h : Synced (rebuildIndexes { idx with idToSlot := enterAll (idEntries idx.records) }) :=
    synced_rebuildIndexes rfl
  unfold rebuild
  rw [foldl_enterId]
  exact ⟨h.ids, h.keys, h.domains, h.hashes, h.trie, h.noted⟩

theorem Change.synced {idx idx' : IndicatorIndex} {op : IndexOp} (hc : Change idx op idx')
    (h : Synced idx) : Synced idx' := by
  cases hc with
  | adds _ => exact runFrom_adds Synced (fun _ ind _ hs => synced_add hs ind) h
  | switches slot on _ _ => exact synced_changeRecord h slot fun _ => rfl
  | noRecord _ => exact h
  | role _ => exact synced_changeRecord h _ fun _ => rfl
  | rebuild => exact synced_rebuild idx
  | compact => exact synced_rebuild _

/-- **Every operation keeps the indexes.** -/
theorem synced_step {idx : IndicatorIndex} (h : Synced idx) (op : IndexOp) :
    Synced (indexMachine.step idx op) := (change_step idx op).synced h

/-- From a state whose indexes follow the records, every run keeps them so. -/
theorem synced_runFrom {idx : IndicatorIndex} (h : Synced idx) (ops : List IndexOp) :
    Synced (indexMachine.runFrom idx ops) := by
  refine indexMachine.runFrom_invariant (P := fun _ => True) ?_ (fun _ _ => trivial) h
  exact fun _ op _ hs => synced_step hs op

/-- In every run the indexes follow the records. -/
theorem synced_run (ops : List IndexOp) : Synced (indexMachine.run ops) :=
  synced_runFrom synced_init ops

end PacketGuard.Ioc
