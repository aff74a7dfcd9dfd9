import PacketGuard.Ioc.Lookup
import PacketGuard.Lib.Clock

/-! # Generations and statistics

The generation of an index counts what its operations did, and marks every
record with the moment of its last change.  The statistics of an index count
what is there: records, names, digests, and one trie node for every initial
segment of an address range.
-/
namespace PacketGuard.Ioc
open PacketGuard.Core PacketGuard.Lib
open IndicatorIndex

/-! ## Statistics -/

structure IocIndexStats where
  totalRecords : Nat := 0
  activeRecords : Nat := 0
  inactiveRecords : Nat := 0
  cidrNodes : Nat := 0
  domainKeys : Nat := 0
  hashKeys : Nat := 0
  generation : Nat := 0
  deriving DecidableEq

/-- One turn of the loop of `stats`. -/
def IocIndexStats.count (s : IocIndexStats) (rec : IndexedIndicator) : IocIndexStats :=
  if rec.active then { s with activeRecords := s.activeRecords + 1 }
  else { s with inactiveRecords := s.inactiveRecords + 1 }

def IndicatorIndex.stats (idx : IndicatorIndex) : IocIndexStats :=
  idx.records.foldl IocIndexStats.count
    { totalRecords := idx.records.length
      cidrNodes := idx.cidrTrie.length
      domainKeys := idx.domains.size
      hashKeys := idx.hashes.size
      generation := idx.generation }

/-- The loop counts the active and the inactive records. -/
theorem foldl_count (records : List IndexedIndicator) (s : IocIndexStats) :
    records.foldl IocIndexStats.count s =
      { s with
        activeRecords := s.activeRecords + (activeIndicators records).length
        inactiveRecords :=
          s.inactiveRecords + (records.length - (activeIndicators records).length) } := by
  have hle : ∀ records : List IndexedIndicator, (activeIndicators records).length ≤
      records.length := by
    intro records
    rw [activeIndicators, List.length_map]
    exact List.length_filter_le _ _
  induction records generalizing s with
  | nil => rfl
  | cons rec records ih =>
    have hrest := hle records
    rw [List.foldl_cons, ih]
    by_cases h : rec.active
    · simp [IocIndexStats.count, h, activeIndicators]
      omega
    · have hlength : (activeIndicators (rec :: records)).length =
          (activeIndicators records).length := by
        simp [activeIndicators, h]
      simp only [IocIndexStats.count, h, hlength, List.length_cons]
      simp
      omega

/-! ## The generation -/

/-- By how much an operation advances the generation. -/
def stampsOf (idx : IndicatorIndex) : IndexOp → Nat
  | .add _ => 1
  | .addSet set => set.indicators.length
  | .removeId id => (removeId idx id).2.toNat
  | .removeKey key => (removeKey idx key).2.toNat
  | .reactivateId id => (reactivateId idx id).2.toNat
  | .updateRole id role => (updateRole idx id role).2.toNat
  | .rebuild => 1
  | .compact => 1

theorem indexRecord_generation (idx : IndicatorIndex) (slot : Nat) :
    (indexRecord idx slot).generation = idx.generation := by
  unfold indexRecord
  cases idx.records[slot]? with
  | none => rfl
  | some rec =>
    by_cases hactive : rec.active
    · cases htype : rec.indicator.type <;> simp only [hactive, htype] <;>
        first
          | rfl
          | (cases indexedRange rec.indicator <;> rfl)
    · simp [hactive]

@[simp] theorem rebuildIndexes_generation (idx : IndicatorIndex) :
    (rebuildIndexes idx).generation = idx.generation := by rw [rebuildIndexes_eq]

@[simp] theorem add_generation (idx : IndicatorIndex) (ind : Indicator) :
    (add idx ind).1.generation = (idx.generation + 1) % 2 ^ 32 := indexRecord_generation _ _

@[simp] theorem changeRecord_generation (idx : IndicatorIndex) (slot : Nat)
    (f : IndexedIndicator → IndexedIndicator) :
    (changeRecord idx slot f).generation = (idx.generation + 1) % 2 ^ 32 := by
  simp [changeRecord, nextGeneration]

@[simp] theorem rebuild_generation (idx : IndicatorIndex) :
    (rebuild idx).generation = (idx.generation + 1) % 2 ^ 32 := by
  simp [rebuild, nextGeneration]

@[simp] theorem compact_generation (idx : IndicatorIndex) :
    (compact idx).generation = (idx.generation + 1) % 2 ^ 32 := by
  simp [compact]

/-- Either an operation on one record reports no effect and leaves the index alone, or it changes a
record. -/
inductive Effect (idx : IndicatorIndex) : IndicatorIndex × Bool → Prop
  | nothing : Effect idx (idx, false)
  | changed {slot : Nat} {f : IndexedIndicator → IndexedIndicator} :
    Effect idx (changeRecord idx slot f, true)

theorem effect_removeId (idx : IndicatorIndex) (id : Nat) : Effect idx (removeId idx id) := by
  unfold removeId
  rcases recordOf idx id with _ | ⟨slot, rec⟩
  · exact .nothing
  · by_cases hactive : rec.active
    · simp only [hactive]
      exact .changed
    · simp only [hactive]
      exact .nothing

theorem effect_removeKey (idx : IndicatorIndex) (key : Str) : Effect idx (removeKey idx key) := by
  unfold removeKey
  rcases idx.keyToSlot[key]?.bind fun slot => idx.records[slot]? with _ | rec
  · exact .nothing
  · exact effect_removeId idx rec.id

theorem effect_reactivateId (idx : IndicatorIndex) (id : Nat) :
    Effect idx (reactivateId idx id) := by
  unfold reactivateId
  rcases recordOf idx id with _ | ⟨slot, rec⟩
  · exact .nothing
  · by_cases hactive : rec.active
    · simp only [hactive]
      exact .nothing
    · simp only [hactive]
      exact .changed

theorem effect_updateRole (idx : IndicatorIndex) (id : Nat) (role : ListRole) :
    Effect idx (updateRole idx id role) := by
  unfold updateRole
  rcases recordOf idx id with _ | ⟨slot, rec⟩
  · exact .nothing
  · exact .changed

theorem Effect.generation {idx : IndicatorIndex} {result : IndicatorIndex × Bool}
    (h : Effect idx result)
    (hgen : idx.generation < 2 ^ 32) :
    result.1.generation = (idx.generation + result.2.toNat) % 2 ^ 32 := by
  cases h with
  | nothing => exact (Nat.mod_eq_of_lt hgen).symm
  | changed => exact changeRecord_generation idx _ _

theorem Effect.idle {idx : IndicatorIndex} {result : IndicatorIndex × Bool} (h : Effect idx result)
    (hnone : result.2.toNat = 0) : result.1 = idx := by
  cases h with
  | nothing => rfl
  | changed => cases hnone

theorem addAll_generation (inds : List Indicator) {idx : IndicatorIndex}
    (hgen : idx.generation < 2 ^ 32) :
    (indexMachine.runFrom idx (inds.map .add)).generation =
      (idx.generation + inds.length) % 2 ^ 32 := by
  induction inds generalizing idx with
  | nil => exact (Nat.mod_eq_of_lt hgen).symm
  | cons ind inds ih =>
    have hnext : (indexMachine.step idx (.add ind)).generation = (idx.generation + 1) % 2 ^ 32 :=
      add_generation idx ind
    rw [List.map_cons, Machine.runFrom_cons, ih (by rw [hnext]; exact Nat.mod_lt _ (by decide)),
      hnext, List.length_cons]
    omega

/-- Every operation advances the generation by its stamps, within its bits. -/
theorem generation_step {idx : IndicatorIndex} (hgen : idx.generation < 2 ^ 32) (op : IndexOp) :
    (indexMachine.step idx op).generation = (idx.generation + stampsOf idx op) % 2 ^ 32 := by
  cases op with
  | add ind => exact add_generation idx ind
  | addSet set =>
    change (addSet idx set).1.generation = _
    rw [addSet_eq_runFrom]
    exact addAll_generation set.indicators hgen
  | removeId id => exact (effect_removeId idx id).generation hgen
  | removeKey key => exact (effect_removeKey idx key).generation hgen
  | reactivateId id => exact (effect_reactivateId idx id).generation hgen
  | updateRole id role => exact (effect_updateRole idx id role).generation hgen
  | rebuild => exact rebuild_generation idx
  | compact => exact compact_generation idx

/-- The generation as the 32-bit counter that it is. -/
def generationBits (idx : IndicatorIndex) : BitVec 32 := BitVec.ofNat 32 idx.generation

theorem generation_eq_of_bits {idx : IndicatorIndex} (hgen : idx.generation < 2 ^ 32) :
    idx.generation = (generationBits idx).toNat := by
  rw [generationBits, BitVec.toNat_ofNat, Nat.mod_eq_of_lt hgen]

/-- **The generation is a clock** of the index. -/
theorem clock_generation :
    indexMachine.Clock (fun idx => idx.generation < 2 ^ 32) stampsOf generationBits id where
  init := by decide
  step idx op hgen := by
    rw [generation_step hgen]
    exact Nat.mod_lt _ (by decide)
  advances idx op hgen := by
    apply BitVec.eq_of_toNat_eq
    rw [BitVec.toNat_add, generationBits, generationBits, generation_step hgen,
      BitVec.natCast_eq_ofNat,
      BitVec.toNat_ofNat, BitVec.toNat_ofNat, BitVec.toNat_ofNat, Nat.mod_mod, Nat.add_mod]
  idle idx op _ hnone := by
    cases op with
    | add ind => cases hnone
    | addSet set =>
      change (addSet idx set).1 = idx
      rw [addSet_eq_runFrom, List.eq_nil_of_length_eq_zero hnone]
      rfl
    | removeId id => exact (effect_removeId idx id).idle hnone
    | removeKey key => exact (effect_removeKey idx key).idle hnone
    | reactivateId id => exact (effect_reactivateId idx id).idle hnone
    | updateRole id role => exact (effect_updateRole idx id role).idle hnone
    | rebuild => cases hnone
    | compact => cases hnone

/-- The generation counts from 1. -/
theorem generation_run (ops : List IndexOp) :
    (indexMachine.run ops).generation = (1 + indexMachine.cost stampsOf ops) % 2 ^ 32 := by
  rw [generation_eq_of_bits (clock_generation.run ops), Machine.run,
    clock_generation.clock_runFrom (by decide),
    BitVec.toNat_add, BitVec.natCast_eq_ofNat, BitVec.toNat_ofNat, ← Machine.cost, Nat.add_mod_mod]
  rfl

/-! ## The stamps of the records -/

/-- The stamps, in slot order. -/
def stampsIn (records : List IndexedIndicator) : List Nat := records.map IndexedIndicator.generation

/-- The records carry distinct stamps, older than the generation. -/
structure Stamped (idx : IndicatorIndex) : Prop where
  range : ∀ g ∈ stampsIn idx.records, 1 ≤ g ∧ g < idx.generation
  nodup : (stampsIn idx.records).Nodup
  positive : 1 ≤ idx.generation

theorem stamped_add {idx : IndicatorIndex} (h : Stamped idx) (hfew : idx.generation + 1 < 2 ^ 32)
    (ind : Indicator) :
    Stamped (add idx ind).1 := by
  have hstamps : stampsIn (add idx ind).1.records = stampsIn idx.records ++ [idx.generation] := by
    simp [stampsIn, newRecord]
  have hgen : (add idx ind).1.generation = idx.generation + 1 := by
    rw [add_generation, Nat.mod_eq_of_lt hfew]
  have hpositive := h.positive
  constructor
  · intro g hg
    rw [hstamps, List.mem_append, List.mem_singleton] at hg
    rcases hg with hg | rfl
    · have hrange := h.range g hg
      omega
    · omega
  · rw [hstamps, List.nodup_append]
    refine ⟨h.nodup, List.nodup_singleton _, ?_⟩
    rintro g hg _ hg' rfl
    rw [List.mem_singleton.mp hg'] at hg
    exact Nat.lt_irrefl _ (h.range _ hg).2
  · omega

theorem stamped_addAll {inds : List Indicator} {idx : IndicatorIndex} (h : Stamped idx)
    (hfew : idx.generation + inds.length < 2 ^ 32) :
    Stamped (indexMachine.runFrom idx (inds.map .add)) := by
  induction inds generalizing idx with
  | nil => exact h
  | cons ind inds ih =>
    rw [List.length_cons] at hfew
    have hgen : (add idx ind).1.generation = idx.generation + 1 := by
      rw [add_generation, Nat.mod_eq_of_lt (by omega)]
    exact ih (stamped_add h (by omega) ind) (by
      change (add idx ind).1.generation + inds.length < 2 ^ 32
      omega)

/-- Stamping one record with the newest generation keeps the stamps distinct. -/
theorem stamped_changeRecord {idx : IndicatorIndex} (h : Stamped idx)
    (hfew : idx.generation + 1 < 2 ^ 32)
    (slot : Nat) (f : IndexedIndicator → IndexedIndicator) : Stamped (changeRecord idx slot f) := by
  have hstamps : stampsIn (changeRecord idx slot f).records = (stampsIn idx.records).set slot
      idx.generation := by
    rw [changeRecord_records, stampsIn, stampsIn]
    apply List.ext_getElem?
    intro i
    rw [List.getElem?_map, List.getElem?_modify, List.getElem?_set, List.getElem?_map,
      List.length_map]
    by_cases hslot : slot = i
    · subst hslot
      by_cases hin : slot < idx.records.length
      · simp [hin]
      · simp [hin]
    · simp [hslot]
  have hgen : (changeRecord idx slot f).generation = idx.generation + 1 := by
    rw [changeRecord_generation, Nat.mod_eq_of_lt hfew]
  have hpositive := h.positive
  constructor
  · intro g hg
    rw [hstamps] at hg
    rcases List.mem_or_eq_of_mem_set hg with hg | rfl
    · have hrange := h.range g hg
      omega
    · omega
  · rw [hstamps]
    exact h.nodup.set fun hg => Nat.lt_irrefl _ (h.range _ hg).2
  · omega

/-- From `idx` to `idx'` records are dropped at most, and the generation advances. -/
theorem Stamped.of_sublist {idx idx' : IndicatorIndex} (h : Stamped idx)
    (hrecords : idx'.records.Sublist idx.records) (hgen : idx'.generation = idx.generation + 1) :
    Stamped idx' := by
  have hstamps : (stampsIn idx'.records).Sublist (stampsIn idx.records) := hrecords.map _
  have hpositive := h.positive
  refine ⟨fun g hg => ?_, h.nodup.sublist hstamps, by omega⟩
  have hrange := h.range g (hstamps.subset hg)
  omega

theorem Effect.stamped {idx : IndicatorIndex} {result : IndicatorIndex × Bool}
    (h : Effect idx result)
    (hs : Stamped idx) (hfew : idx.generation + result.2.toNat < 2 ^ 32) : Stamped result.1 := by
  cases h with
  | nothing => exact hs
  | changed => exact stamped_changeRecord hs hfew _ _

/-- **Every operation keeps the stamps distinct**, while the generation does not come round. -/
theorem stamped_step {idx : IndicatorIndex} (h : Stamped idx) (op : IndexOp)
    (hfew : idx.generation + stampsOf idx op < 2 ^ 32) : Stamped (indexMachine.step idx op) := by
  cases op with
  | add ind => exact stamped_add h hfew ind
  | addSet set =>
    change Stamped (addSet idx set).1
    rw [addSet_eq_runFrom]
    exact stamped_addAll h hfew
  | removeId id => exact (effect_removeId idx id).stamped h hfew
  | removeKey key => exact (effect_removeKey idx key).stamped h hfew
  | reactivateId id => exact (effect_reactivateId idx id).stamped h hfew
  | updateRole id role => exact (effect_updateRole idx id role).stamped h hfew
  | rebuild =>
    refine h.of_sublist (by rw [show (indexMachine.step idx .rebuild) = rebuild idx by rfl,
      rebuild_records]) ?_
    exact (rebuild_generation idx).trans (Nat.mod_eq_of_lt hfew)
  | compact =>
    refine h.of_sublist ?_ ((compact_generation idx).trans (Nat.mod_eq_of_lt hfew))
    rw [show (indexMachine.step idx .compact) = compact idx by rfl, compact_records]
    exact List.filter_sublist

theorem stamped_runFrom {idx : IndicatorIndex} (h : Stamped idx) (ops : List IndexOp)
    (hfew : idx.generation + indexMachine.costFrom stampsOf idx ops < 2 ^ 32) :
    Stamped (indexMachine.runFrom idx ops) := by
  induction ops generalizing idx with
  | nil => exact h
  | cons op ops ih =>
    rw [Machine.costFrom] at hfew
    have hgen := generation_step (show idx.generation < 2 ^ 32 by omega) op
    rw [Nat.mod_eq_of_lt (by omega)] at hgen
    exact ih (stamped_step h op (by omega)) (by omega)

theorem stamped_init : Stamped indexMachine.init :=
  ⟨fun _ hg => absurd hg List.not_mem_nil, List.nodup_nil, Nat.le_refl 1⟩

/-- **Generations tell changes apart.** In every run that stamps fewer than `2 ^ 32
- 1` times, the generation is one more than the number of stamps, the records carry
distinct older stamps, and two moments with equal generations are one and the same
index. -/
theorem indexMachine_generations (ops : List IndexOp)
    (hfew : indexMachine.cost stampsOf ops < 2 ^ 32 - 1) :
    (indexMachine.run ops).generation = 1 + indexMachine.cost stampsOf ops ∧
    Stamped (indexMachine.run ops) ∧
      ∀ before after, before <+: ops → after <+: ops →
        (indexMachine.run before).generation = (indexMachine.run after).generation →
          indexMachine.run before = indexMachine.run after := by
  have hinit : indexMachine.init.generation = 1 := rfl
  refine ⟨?_, ?_, fun before after hbefore hafter hgen => ?_⟩
  · rw [generation_run, Nat.mod_eq_of_lt (by omega)]
  · refine stamped_runFrom stamped_init ops ?_
    rw [hinit, ← Machine.cost]
    omega
  · refine clock_generation.view_eq (by omega) hbefore hafter ?_
    rw [generationBits, hgen]
    rfl

/-- A name and an address are added, the address is removed twice, and the index is
rebuilt. The second removal finds nothing to remove. -/
theorem indexMachine_generations_rebuilt :
    let ops : List IndexOp :=
      [.add { type := .domain, normalized := "evil.example".toList },
        .add { type := .ip, ip := some ⟨0x0a000001⟩ }, .removeId 2, .removeId 2, .rebuild]
    (indexMachine.run ops).generation = 5 ∧ Stamped (indexMachine.run ops) ∧
      indexMachine.run (ops.take 3) = indexMachine.run (ops.take 4) := by
  intro ops
  obtain ⟨hgen, hstamped, hmoments⟩ := indexMachine_generations ops (by decide)
  exact ⟨hgen, hstamped,
    hmoments (ops.take 3) (ops.take 4) (List.take_prefix _ _) (List.take_prefix _ _) (by decide)⟩

/-! ## What the statistics say -/

/-- **The statistics of every run** that the trie has room for: the records,
active and inactive; the distinct names and digests of the active indicators;
and one trie node for every initial segment of their ranges, once there is a
trie. -/
theorem stats_run (ops : List IndexOp) (hfits : RunFits ops) :
    let idx := indexMachine.run ops
    let inds := activeIndicators idx.records
    idx.faulted = false ∧
    idx.stats = { idx.stats with
      totalRecords := idx.records.length
      activeRecords := inds.length
      inactiveRecords := idx.records.length - inds.length
      domainKeys := (inds.filterMap nameKey).toFinset.card
      hashKeys := (inds.filterMap hashKey).toFinset.card
      generation := (1 + indexMachine.cost stampsOf ops) % 2 ^ 32 } ∧
    (idx.stats.cidrNodes = nodesNeeded inds ∨ idx.stats.cidrNodes = 0 ∧
      inds.filterMap pathKey = []) := by
  have hs := synced_run ops
  have hgen : (indexMachine.run ops).generation = (1 + indexMachine.cost stampsOf ops) % 2 ^ 32 :=
    generation_run ops
  refine ⟨(faulted_run_iff ops).mpr hfits, ?_⟩
  simp only [IndicatorIndex.stats, foldl_count, Nat.zero_add]
  refine ⟨?_, ?_⟩
  · rw [hs.domains, hs.hashes, size_fileAll, size_fileAll, map_fst_entriesOf,
      map_fst_entriesOf, hgen]
  · rcases hs.trie_eq (hfits ops List.prefix_rfl).nodes with htrie | ⟨htrie, hnone⟩
    · left
      rw [htrie, IntTrie.length_ofNat, length_pathEntries]
    · right
      rw [htrie, ← map_fst_entriesOf, ← pathEntries, hnone]
      exact ⟨rfl, rfl⟩

/-- Two ranges, one of them removed, and a name. -/
theorem stats_run_removed :
    let ops : List IndexOp :=
      [.add { type := .cidr, cidr := some ⟨⟨0x0a000000⟩, 8⟩ },
        .add { type := .ip, ip := some ⟨0x0a000001⟩ },
        .add { type := .domain, normalized := "evil.example".toList }, .removeId 2]
    let idx := indexMachine.run ops
    let inds := activeIndicators idx.records
    idx.faulted = false ∧
    idx.stats = { idx.stats with
      totalRecords := idx.records.length
      activeRecords := inds.length
      inactiveRecords := idx.records.length - inds.length
      domainKeys := (inds.filterMap nameKey).toFinset.card
      hashKeys := (inds.filterMap hashKey).toFinset.card
      generation := (1 + indexMachine.cost stampsOf ops) % 2 ^ 32 } ∧
    (idx.stats.cidrNodes = nodesNeeded inds ∨ idx.stats.cidrNodes = 0 ∧
      inds.filterMap pathKey = []) := by
  refine stats_run _ (runFits_of_few ?_ (by decide))
  simp [addedBy, ShortRange, pathKey, indexedRange, length_addressBits]

end PacketGuard.Ioc
