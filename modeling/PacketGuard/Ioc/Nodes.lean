import PacketGuard.Ioc.Identifiers

/-! # Runs that the trie has room for

The source keeps the children of a trie node as `int`s and shifts an address by
its prefix length, so an operation has a defined effect only where every range
has a prefix of at most 32 bits and the trie needs at most `2 ^ 31` nodes, one
for every initial segment of a range.  `Fits` says this of a list of indicators.

The bound is exact.  An operation that files the active indicators of its last
state notes a fault just if they do not fit (`faulted_step`): adding only makes
more of them, and the other operations file all of them anew.  So a run has a
defined effect throughout if and only if the active indicators of every state
it passes fit (`faulted_run_iff`), and then the trie of `int`s is the trie of
natural indexes (`Synced.trie_eq`).
-/
namespace PacketGuard.Ioc
open PacketGuard.Core PacketGuard.Lib
open IndicatorIndex

/-- The nodes of a trie of the indicators: one for every initial segment of their
paths. -/
def nodesNeeded (inds : List Indicator) : Nat := (NodeTrie.prefixes (inds.filterMap pathKey)).card

/-- The indicator is filed at a path of at most 32 bits, if at all. -/
def ShortRange (ind : Indicator) : Prop := ∀ path, pathKey ind = some path → path.length ≤ 32

/-- The indicators can be filed in a trie whose children are `int`s. -/
structure Fits (inds : List Indicator) : Prop where
  short : ∀ ind ∈ inds, ShortRange ind
  nodes : nodesNeeded inds ≤ 2 ^ 31

/-- The active indicators of every state that the run passes can be filed. -/
def RunFits (ops : List IndexOp) : Prop :=
  ∀ before, before <+: ops → Fits (activeIndicators (indexMachine.run before).records)

/-! ## Fewer indicators need fewer nodes -/

theorem nodesNeeded_le {inds inds' : List Indicator} (h : ∀ ind ∈ inds', ind ∈ inds) :
    nodesNeeded inds' ≤ nodesNeeded inds := by
  refine Finset.card_le_card fun q hq => ?_
  rw [NodeTrie.mem_prefixes] at hq ⊢
  rcases hq with hq | ⟨path, hpath, hq⟩
  · exact Or.inl hq
  · obtain ⟨ind, hind, hkey⟩ := List.mem_filterMap.mp hpath
    exact Or.inr ⟨path, List.mem_filterMap.mpr ⟨ind, h ind hind, hkey⟩, hq⟩

theorem Fits.of_subset {inds inds' : List Indicator} (hfits : Fits inds)
    (h : ∀ ind ∈ inds', ind ∈ inds) :
    Fits inds' :=
  ⟨fun ind hind => hfits.short ind (h ind hind), (nodesNeeded_le h).trans hfits.nodes⟩

/-! ## What a filing notes -/

/-- The trie has the nodes that its indicators need. -/
theorem length_pathEntries (records : List IndexedIndicator) :
    (NodeTrie.ofEntries (pathEntries records)).length = nodesNeeded (activeIndicators records) := by
  rw [NodeTrie.length_ofEntries, pathEntries, map_fst_entriesOf, nodesNeeded]

/-- Filing has a defined effect exactly for indicators that fit. -/
theorem unsound_eq_false_iff (records : List IndexedIndicator) :
    unsound (pathEntries records) = false ↔ Fits (activeIndicators records) := by
  have hshort : (pathEntries records).any (fun e => decide (32 < e.1.length)) = false ↔
      ∀ ind ∈ activeIndicators records, ShortRange ind := by
    have hpaths := map_fst_entriesOf pathKey records
    rw [← Bool.not_eq_true, List.any_eq_true]
    constructor
    · intro hnone ind hind path hpath
      by_contra hlong
      have hmem : path ∈ (pathEntries records).map Prod.fst := by
        rw [pathEntries, hpaths]
        exact List.mem_filterMap.mpr ⟨ind, hind, hpath⟩
      obtain ⟨e, he, rfl⟩ := List.mem_map.mp hmem
      exact hnone ⟨e, he, decide_eq_true (Nat.lt_of_not_le hlong)⟩
    · rintro hall ⟨e, he, hlong⟩
      have hmem := List.mem_map_of_mem (f := Prod.fst) he
      rw [pathEntries, hpaths] at hmem
      obtain ⟨ind, hind, hpath⟩ := List.mem_filterMap.mp hmem
      exact absurd (hall ind hind e.1 hpath) (Nat.not_le_of_lt (of_decide_eq_true hlong))
  rw [unsound, Bool.or_eq_false_iff, hshort, (IntTrie.faults_ofEntries _).1, length_pathEntries]
  exact ⟨fun h => ⟨h.1, h.2⟩, fun h => ⟨h.short, h.nodes⟩⟩

theorem unsound_concat {records : List IndexedIndicator} (h : unsound (pathEntries records) = true)
    (rec : IndexedIndicator) : unsound (pathEntries (records ++ [rec])) = true := by
  rw [pathEntries, activeSlots_concat]
  by_cases hactive : rec.active
  · rw [if_pos hactive, unsound_entriesOf_concat, ← pathEntries, h, Bool.true_or]
  · rw [if_neg hactive, List.append_nil]
    exact h

/-! ## What an operation notes -/

/-- What is noted in a state with current indexes stays so. -/
theorem Synced.faulted_eq {idx : IndicatorIndex} (h : Synced idx) :
    idx.faulted = (unsound (pathEntries idx.records) || idx.faulted) := by
  cases hunsound : unsound (pathEntries idx.records) with
  | false => rfl
  | true => rw [h.noted hunsound, Bool.or_self]

theorem add_faulted (idx : IndicatorIndex) (ind : Indicator) :
    (add idx ind).1.faulted =
      (faultAt idx.cidrTrie (pathKey (completeNormalized ind)) || idx.faulted) := by
  have hget : (idx.records ++ [newRecord idx ind])[idx.records.length]? =
      some (newRecord idx ind) := by simp
  unfold add
  simp only
  rw [indexRecord_eq (by exact hget) rfl]
  rfl

theorem faulted_add {idx : IndicatorIndex} (h : Synced idx) (ind : Indicator) :
    (add idx ind).1.faulted = (unsound (pathEntries (add idx ind).1.records) || idx.faulted) := by
  have hslots : activeSlots (idx.records ++ [newRecord idx ind]) =
      activeSlots idx.records ++ [(idx.records.length, completeNormalized ind)] :=
        activeSlots_concat _ _
  -- what is new is the last entry
  rw [add_faulted, add_records, pathEntries, hslots, unsound_entriesOf_concat, ← pathEntries,
    ← h.faultAt_trie, Bool.or_right_comm, ← h.faulted_eq, Bool.or_comm]

theorem faulted_addAll {idx : IndicatorIndex} (h : Synced idx) (inds : List Indicator) :
    (indexMachine.runFrom idx (inds.map .add)).faulted =
      (unsound (pathEntries (indexMachine.runFrom idx (inds.map .add)).records) ||
        idx.faulted) := by
  induction inds generalizing idx with
  | nil => exact h.faulted_eq
  | cons ind inds ih =>
    have hrest : (indexMachine.runFrom (add idx ind).1 (inds.map .add)).faulted = _ :=
      ih (synced_add h ind)
    rw [faulted_add h] at hrest
    -- what did not fit before fits still less
    have hmore : unsound (pathEntries (add idx ind).1.records) = true →
        unsound (pathEntries (indexMachine.runFrom (add idx ind).1 (inds.map .add)).records) =
          true := by
      refine runFrom_adds (fun s => unsound (pathEntries s.records) = true) fun s ind' _ hs => ?_
      rw [add_records]
      exact unsound_concat hs _
    change (indexMachine.runFrom (add idx ind).1 (inds.map .add)).faulted = _
    rw [hrest, List.map_cons, Machine.runFrom_cons]
    cases hunsound : unsound (pathEntries (add idx ind).1.records) with
    | false => rfl
    | true =>
      change (unsound (pathEntries
        (indexMachine.runFrom (add idx ind).1 (inds.map .add)).records) || _) =
        (unsound (pathEntries (indexMachine.runFrom (add idx ind).1 (inds.map .add)).records) || _)
      rw [hmore hunsound, Bool.true_or, Bool.true_or]

theorem faulted_rebuildIndexes (idx : IndicatorIndex) :
    (rebuildIndexes idx).faulted =
      (unsound (pathEntries (rebuildIndexes idx).records) || idx.faulted) := by
  rw [rebuildIndexes_eq]

/-- **Step lemma.**  An operation notes a fault just if the active indicators that
it leaves do not fit. -/
theorem Change.faulted {idx idx' : IndicatorIndex} {op : IndexOp} (hc : Change idx op idx')
    (h : Synced idx) :
    idx'.faulted = (unsound (pathEntries idx'.records) || idx.faulted) := by
  cases hc with
  | adds _ => exact faulted_addAll h (addedBy op)
  | switches slot on _ _ => exact faulted_rebuildIndexes _
  | noRecord _ => exact h.faulted_eq
  | role _ => exact faulted_rebuildIndexes _
  | rebuild => exact faulted_rebuildIndexes _
  | compact => exact faulted_rebuildIndexes _

theorem faulted_step {idx : IndicatorIndex} (h : Synced idx) (op : IndexOp) :
    (indexMachine.step idx op).faulted = false ↔
      Fits (activeIndicators (indexMachine.step idx op).records) ∧ idx.faulted = false := by
  rw [(change_step idx op).faulted h, Bool.or_eq_false_iff, unsound_eq_false_iff]

/-! ## Runs -/

theorem runFits_concat {ops : List IndexOp} {op : IndexOp} :
    RunFits (ops ++ [op]) ↔
      RunFits ops ∧ Fits (activeIndicators (indexMachine.run (ops ++ [op])).records) := by
  constructor
  · intro h
    exact ⟨fun before hbefore => h before (hbefore.trans (List.prefix_append _ _)),
      h _ List.prefix_rfl⟩
  · rintro ⟨h, hlast⟩ before hbefore
    rcases List.prefix_concat_iff.mp hbefore with rfl | hbefore
    · exact hlast
    · exact h before hbefore

/-- **A run has a defined effect throughout exactly if the trie has room for the
active indicators of every state it passes.** -/
theorem faulted_run_iff (ops : List IndexOp) :
    (indexMachine.run ops).faulted = false ↔ RunFits ops := by
  refine indexMachine.run_induction (P := fun ops idx => idx.faulted = false ↔ RunFits ops)
    ?_ ?_ ops
  · refine ⟨fun _ before hbefore => ?_, fun _ => rfl⟩
    rw [List.prefix_nil.mp hbefore]
    exact (unsound_eq_false_iff []).mp rfl
  · intro ops op ih
    rw [faulted_step (synced_run ops) op, ih, runFits_concat, indexMachine.run_concat]
    exact and_comm

/-- One more operation that leaves no other active indicators. -/
theorem RunFits.concat {ops : List IndexOp} (h : RunFits ops) {op : IndexOp}
    (hactive : ∀ ind ∈ activeIndicators (indexMachine.step (indexMachine.run ops) op).records,
      ind ∈ activeIndicators (indexMachine.run ops).records) : RunFits (ops ++ [op]) := by
  refine runFits_concat.mpr ⟨h, ?_⟩
  rw [indexMachine.run_concat]
  exact (h ops List.prefix_rfl).of_subset hactive

/-- **The trie of `int`s is the trie of natural indexes**, where its nodes fit. -/
theorem Synced.trie_eq {idx : IndicatorIndex} (h : Synced idx)
    (hnodes : nodesNeeded (activeIndicators idx.records) ≤ 2 ^ 31) :
    idx.cidrTrie = IntTrie.ofNat (NodeTrie.ofEntries (pathEntries idx.records)) ∨
      (idx.cidrTrie = [] ∧ pathEntries idx.records = []) := by
  rw [← length_pathEntries] at hnodes
  rcases h.trie with htrie | hnil
  · exact Or.inl (htrie.trans ((IntTrie.faults_ofEntries _).2 hnodes))
  · exact Or.inr hnil

/-! ## Few indicators always fit -/

theorem pathKey_completeNormalized (ind : Indicator) :
    pathKey (completeNormalized ind) = pathKey ind := by
  unfold completeNormalized
  split
  · cases htype : ind.type <;> simp [pathKey, htype]
  · rfl

/-- The ranges of a run are those that it adds. -/
theorem shortRange_run {ops : List IndexOp}
    (hshort : ∀ op ∈ ops, ∀ ind ∈ addedBy op, ShortRange ind) :
    ∀ ind ∈ activeIndicators (indexMachine.run ops).records, ShortRange ind := by
  have hall : AllRecords ShortRange (indexMachine.run ops) := by
    refine indexMachine.run_invariant (P := fun op => ∀ ind ∈ addedBy op, ShortRange ind)
      ?_ ?_ hshort
    · exact fun rec hrec => absurd hrec List.not_mem_nil
    · intro idx op hop hidx
      refine (change_step idx op).allRecords (fun ind h => ?_) (fun _ _ h => h) hop hidx
      rwa [ShortRange, pathKey_completeNormalized]
  intro ind hind
  obtain ⟨rec, hrec, rfl⟩ := List.mem_map.mp hind
  exact hall rec (List.mem_of_mem_filter hrec)

/-- A run whose ranges are short fits if it never needs too many nodes. -/
theorem runFits_of_short {ops : List IndexOp}
    (hshort : ∀ op ∈ ops, ∀ ind ∈ addedBy op, ShortRange ind)
    (hnodes : ∀ before, before <+: ops →
      nodesNeeded (activeIndicators (indexMachine.run before).records) ≤ 2 ^ 31) : RunFits ops :=
  fun before hbefore =>
    ⟨shortRange_run fun op hop => hshort op (hbefore.subset hop), hnodes before hbefore⟩

theorem addCount_le_of_prefix {before ops : List IndexOp} (h : before <+: ops) :
    addCount before ≤ addCount ops := by
  obtain ⟨after, rfl⟩ := h
  rw [addCount_append]
  exact Nat.le_add_right _ _

/-- An indicator needs 33 nodes at most, besides the root. -/
theorem nodesNeeded_le_length {inds : List Indicator} (hshort : ∀ ind ∈ inds, ShortRange ind) :
    nodesNeeded inds ≤ 1 + 33 * inds.length := by
  have hpaths : ∀ path ∈ inds.filterMap pathKey, path.length ≤ 32 := by
    intro path hpath
    obtain ⟨ind, hind, hkey⟩ := List.mem_filterMap.mp hpath
    exact hshort ind hind path hkey
  have hcard := NodeTrie.card_prefixes_le hpaths
  have hlength := List.length_filterMap_le pathKey inds
  unfold nodesNeeded
  omega

/-- **A run that adds few indicators fits.** -/
theorem runFits_of_few {ops : List IndexOp}
    (hshort : ∀ op ∈ ops, ∀ ind ∈ addedBy op, ShortRange ind)
    (hfew : 33 * addCount ops < 2 ^ 31) : RunFits ops := by
  refine runFits_of_short hshort fun before hbefore => ?_
  have hneeded := nodesNeeded_le_length
    (shortRange_run fun op hop => hshort op (hbefore.subset hop))
  have hactive : (activeIndicators (indexMachine.run before).records).length ≤
      (indexMachine.run before).records.length := by
    rw [activeIndicators, List.length_map]
    exact List.length_filter_le _ _
  have hrecords := length_records_run before
  have hcount := addCount_le_of_prefix hbefore
  omega

end PacketGuard.Ioc
