import PacketGuard.Ioc.Sync

/-! # Identifiers and keys

An index hands out identifiers in increasing order, and its maps name exactly
the records that are there.  Both follow from what an operation can do to the
records: append one, change some without touching identifiers, or drop some.
-/
namespace PacketGuard.Ioc
open PacketGuard.Core PacketGuard.Lib
open IndicatorIndex

/-! ## What the operations do to the records -/

@[simp] theorem rebuildIndexes_records (idx : IndicatorIndex) :
    (rebuildIndexes idx).records = idx.records := by rw [rebuildIndexes_eq]

@[simp] theorem rebuildIndexes_nextId (idx : IndicatorIndex) :
    (rebuildIndexes idx).nextId = idx.nextId := by rw [rebuildIndexes_eq]

@[simp] theorem rebuildIndexes_idToSlot (idx : IndicatorIndex) :
    (rebuildIndexes idx).idToSlot = idx.idToSlot := by rw [rebuildIndexes_eq]

@[simp] theorem rebuild_records (idx : IndicatorIndex) : (rebuild idx).records = idx.records := by
  simp [rebuild]

@[simp] theorem rebuild_nextId (idx : IndicatorIndex) : (rebuild idx).nextId = idx.nextId := by
  simp [rebuild]

@[simp] theorem compact_records (idx : IndicatorIndex) :
    (compact idx).records = idx.records.filter (·.active) := by
  simp [compact]

@[simp] theorem compact_nextId (idx : IndicatorIndex) : (compact idx).nextId = idx.nextId := by
  simp [compact]

@[simp] theorem changeRecord_records (idx : IndicatorIndex) (slot : Nat)
    (f : IndexedIndicator → IndexedIndicator) :
    (changeRecord idx slot f).records =
      idx.records.modify slot fun rec => { f rec with generation := idx.generation } := by
  simp [changeRecord]

@[simp] theorem changeRecord_nextId (idx : IndicatorIndex) (slot : Nat)
    (f : IndexedIndicator → IndexedIndicator) : (changeRecord idx slot f).nextId = idx.nextId := by
  simp [changeRecord]

/-- The record that `add` appends. -/
def newRecord (idx : IndicatorIndex) (ind : Indicator) : IndexedIndicator :=
  ⟨idx.nextId, idx.generation, true, completeNormalized ind⟩

theorem indexRecord_records (idx : IndicatorIndex) (slot : Nat) :
    (indexRecord idx slot).records = idx.records ∧ (indexRecord idx slot).nextId = idx.nextId := by
  unfold indexRecord
  cases idx.records[slot]? with
  | none => exact ⟨rfl, rfl⟩
  | some rec =>
    by_cases hactive : rec.active
    · cases htype : rec.indicator.type <;> simp only [hactive, htype] <;>
        first
          | exact ⟨rfl, rfl⟩
          | (cases indexedRange rec.indicator <;> exact ⟨rfl, rfl⟩)
    · simp [hactive]

@[simp] theorem add_records (idx : IndicatorIndex) (ind : Indicator) :
    (add idx ind).1.records = idx.records ++ [newRecord idx ind] :=
  (indexRecord_records _ _).1

@[simp] theorem add_nextId (idx : IndicatorIndex) (ind : Indicator) :
    (add idx ind).1.nextId = (idx.nextId + 1) % 2 ^ 64 :=
  (indexRecord_records _ _).2

/-! ## Identifiers are handed out in order -/

/-- The identifiers of the records, in slot order. -/
def idsOf (records : List IndexedIndicator) : List Nat := records.map IndexedIndicator.id

/-- `n` identifiers have been handed out, and the records carry some of them, in
increasing order.  The counter wraps at 64 bits. -/
structure Issued (n : Nat) (idx : IndicatorIndex) : Prop where
  next : idx.nextId = (n + 1) % 2 ^ 64
  range : n < 2 ^ 64 → ∀ id ∈ idsOf idx.records, 1 ≤ id ∧ id ≤ n
  sorted : n < 2 ^ 64 → (idsOf idx.records).Pairwise (· < ·)

theorem issued_init : Issued 0 {} :=
  ⟨rfl, fun _ _ h => absurd h List.not_mem_nil, fun _ => List.Pairwise.nil⟩

/-- From `idx` to `idx'` no identifier is issued and no record gets another one;
records may be dropped. -/
structure KeepsIds (idx idx' : IndicatorIndex) : Prop where
  next : idx'.nextId = idx.nextId
  ids : (idsOf idx'.records).Sublist (idsOf idx.records)

theorem KeepsIds.refl (idx : IndicatorIndex) : KeepsIds idx idx := ⟨rfl, List.Sublist.refl _⟩

theorem Issued.of_keepsIds {n : Nat} {idx idx' : IndicatorIndex} (h : Issued n idx)
    (hk : KeepsIds idx idx') : Issued n idx' :=
  ⟨hk.next.trans h.next, fun hn id hid => h.range hn id (hk.ids.subset hid),
    fun hn => (h.sorted hn).sublist hk.ids⟩

theorem issued_add {n : Nat} {idx : IndicatorIndex} (h : Issued n idx) (ind : Indicator) :
    Issued (n + 1) (add idx ind).1 := by
  have hnext := h.next
  have hids : idsOf (add idx ind).1.records = idsOf idx.records ++ [idx.nextId] := by
    simp [idsOf, newRecord]
  refine ⟨?_, fun hn id hid => ?_, fun hn => ?_⟩
  · rw [add_nextId, hnext]
    omega
  · rw [hids, List.mem_append, List.mem_singleton] at hid
    rcases hid with hid | rfl
    · have := h.range (by omega) id hid
      omega
    · omega
  · rw [hids, List.pairwise_append]
    refine ⟨h.sorted (by omega), List.pairwise_singleton _ _, fun id hid id' hid' => ?_⟩
    have := h.range (by omega) id hid
    rw [List.mem_singleton] at hid'
    omega

theorem idsOf_modify (records : List IndexedIndicator) (slot : Nat)
    {f : IndexedIndicator → IndexedIndicator} (hf : ∀ rec, (f rec).id = rec.id) :
    idsOf (records.modify slot f) = idsOf records := by
  apply List.ext_getElem?
  intro i
  simp only [idsOf, List.getElem?_map, List.getElem?_modify]
  by_cases h : slot = i <;> cases records[i]? <;> simp [h, hf]

/-- How many indicators an operation adds. -/
def addsOf : IndexOp → Nat
  | .add _ => 1
  | .addSet set => set.indicators.length
  | _ => 0

/-- How many indicators a run adds. -/
def addCount (ops : List IndexOp) : Nat := (ops.map addsOf).sum

theorem addCount_append (ops ops' : List IndexOp) :
    addCount (ops ++ ops') = addCount ops + addCount ops' := by
  simp [addCount]

theorem issued_addAll {n : Nat} {idx : IndicatorIndex} (h : Issued n idx) (inds : List Indicator) :
    Issued (n + inds.length) (indexMachine.runFrom idx (inds.map .add)) := by
  induction inds generalizing n idx with
  | nil => exact h
  | cons ind inds ih =>
    have hrest := ih (issued_add h ind)
    rw [List.length_cons, show n + (inds.length + 1) = n + 1 + inds.length by omega]
    exact hrest

theorem keepsIds_changeRecord (idx : IndicatorIndex) (slot : Nat)
    {f : IndexedIndicator → IndexedIndicator} (hf : ∀ rec, (f rec).id = rec.id) :
    KeepsIds idx (changeRecord idx slot f) := by
  refine ⟨changeRecord_nextId _ _ _, ?_⟩
  rw [changeRecord_records, idsOf_modify _ _ (by exact hf)]

theorem addsOf_eq (op : IndexOp) : addsOf op = (addedBy op).length := by
  cases op <;> rfl

/-- An operation adds its indicators, or issues no identifier and gives no record
another one. -/
theorem Change.keepsIds {idx idx' : IndicatorIndex} {op : IndexOp} (hc : Change idx op idx') :
    idx' = indexMachine.runFrom idx ((addedBy op).map .add) ∨
      (addedBy op = [] ∧ KeepsIds idx idx') := by
  cases hc with
  | adds _ => exact Or.inl rfl
  | switches slot on _ hadds => exact Or.inr ⟨hadds, keepsIds_changeRecord idx slot fun _ => rfl⟩
  | noRecord _ => exact Or.inr ⟨rfl, KeepsIds.refl idx⟩
  | role _ => exact Or.inr ⟨rfl, keepsIds_changeRecord idx _ fun _ => rfl⟩
  | rebuild =>
    refine Or.inr ⟨rfl, rebuild_nextId idx, ?_⟩
    rw [rebuild_records]
  | compact =>
    refine Or.inr ⟨rfl, compact_nextId idx, ?_⟩
    rw [compact_records]
    exact List.filter_sublist.map _

theorem issued_step {n : Nat} {idx : IndicatorIndex} (h : Issued n idx) (op : IndexOp) :
    Issued (n + addsOf op) (indexMachine.step idx op) := by
  rw [addsOf_eq]
  rcases (change_step idx op).keepsIds with heq | ⟨hadds, hkeeps⟩
  · rw [heq]
    exact issued_addAll h (addedBy op)
  · rw [hadds]
    exact h.of_keepsIds hkeeps

theorem issued_runFrom {n : Nat} {idx : IndicatorIndex} (h : Issued n idx) (ops : List IndexOp) :
    Issued (n + addCount ops) (indexMachine.runFrom idx ops) := by
  induction ops generalizing n idx with
  | nil => exact h
  | cons op ops ih =>
    have hrest := ih (issued_step h op)
    rwa [Nat.add_assoc] at hrest

/-- **In every run the records carry identifiers in increasing order.** -/
theorem issued_run (ops : List IndexOp) : Issued (addCount ops) (indexMachine.run ops) := by
  have h := issued_runFrom issued_init ops
  rwa [Nat.zero_add] at h

/-! ## What the records of a run hold -/

/-- All records hold indicators with the property. -/
def AllRecords (Q : Indicator → Prop) (idx : IndicatorIndex) : Prop :=
  ∀ rec ∈ idx.records, Q rec.indicator

section Records
variable {Q : Indicator → Prop}

theorem allRecords_add (hcomplete : ∀ ind, Q ind → Q (completeNormalized ind))
    {idx : IndicatorIndex} (h : AllRecords Q idx) {ind : Indicator} (hind : Q ind) :
    AllRecords Q (add idx ind).1 := by
  intro rec hrec
  rw [add_records, List.mem_append, List.mem_singleton] at hrec
  rcases hrec with hrec | rfl
  · exact h rec hrec
  · exact hcomplete ind hind

theorem allRecords_changeRecord {idx : IndicatorIndex} (h : AllRecords Q idx) (slot : Nat)
    {f : IndexedIndicator → IndexedIndicator} (hf : ∀ rec, Q rec.indicator → Q (f rec).indicator) :
    AllRecords Q (changeRecord idx slot f) := by
  intro rec hrec
  rw [changeRecord_records] at hrec
  obtain ⟨i, hi⟩ := List.mem_iff_getElem?.mp hrec
  rw [List.getElem?_modify] at hi
  obtain ⟨rec', hrec', heq⟩ := Option.map_eq_some_iff.mp hi
  have hold := h rec' (List.mem_of_getElem? hrec')
  by_cases hslot : slot = i
  · rw [if_pos hslot] at heq
    rw [← heq]
    exact hf rec' hold
  · rw [if_neg hslot] at heq
    rw [← heq]
    exact hold

/-- **Every operation keeps** a property of the indicators that survives `add`'s
completion and a change of role, when what it adds has it. -/
theorem Change.allRecords (hcomplete : ∀ ind, Q ind → Q (completeNormalized ind))
    (hrole : ∀ ind role, Q ind → Q { ind with role := role }) {idx idx' : IndicatorIndex}
    {op : IndexOp} (hc : Change idx op idx') (hop : ∀ ind ∈ addedBy op, Q ind)
    (h : AllRecords Q idx) : AllRecords Q idx' := by
  cases hc with
  | adds _ =>
    exact runFrom_adds (AllRecords Q)
      (fun _ ind hind hidx => allRecords_add hcomplete hidx (hop ind hind)) h
  | switches slot on _ _ => exact allRecords_changeRecord h slot fun _ hQ => hQ
  | noRecord _ => exact h
  | role _ => exact allRecords_changeRecord h _ fun rec hQ => hrole rec.indicator _ hQ
  | rebuild =>
    unfold AllRecords
    rwa [rebuild_records]
  | compact =>
    intro rec hrec
    rw [compact_records] at hrec
    exact h rec (List.mem_of_mem_filter hrec)

end Records

/-- Indicators that have a normal form are added as they are. -/
theorem records_addAll {inds : List Indicator} (h : ∀ ind ∈ inds, ind.normalized ≠ [])
    (idx : IndicatorIndex) :
    activeIndicators (indexMachine.runFrom idx (inds.map .add)).records =
      activeIndicators idx.records ++ inds ∧
      (indexMachine.runFrom idx (inds.map .add)).records.length =
        idx.records.length + inds.length := by
  induction inds generalizing idx with
  | nil => exact ⟨(List.append_nil _).symm, rfl⟩
  | cons ind inds ih =>
    obtain ⟨hind, hinds⟩ := List.forall_mem_cons.mp h
    have hcomplete : completeNormalized ind = ind := if_neg (by rw [List.isEmpty_iff]; exact hind)
    have hrecords : (indexMachine.step idx (.add ind)).records = idx.records ++
        [newRecord idx ind] :=
      add_records idx ind
    have hactive : activeIndicators (idx.records ++ [newRecord idx ind]) =
        activeIndicators idx.records ++ [ind] := by
      simp [activeIndicators, newRecord, hcomplete]
    obtain ⟨hrest, hlength⟩ := ih hinds (indexMachine.step idx (.add ind))
    rw [List.map_cons, Machine.runFrom_cons, hrest, hlength, hrecords, hactive]
    refine ⟨by rw [List.append_assoc]; rfl, ?_⟩
    rw [List.length_append, List.length_singleton, List.length_cons]
    omega

/-- A run has a record for each indicator that it adds, at most. -/
theorem length_records_run (ops : List IndexOp) :
    (indexMachine.run ops).records.length ≤ addCount ops := by
  have hadds : ∀ (inds : List Indicator) (idx : IndicatorIndex),
      (indexMachine.runFrom idx (inds.map .add)).records.length =
        idx.records.length + inds.length := by
    intro inds
    induction inds with
    | nil => exact fun _ => rfl
    | cons ind inds ih =>
      intro idx
      have hrest : (indexMachine.runFrom (add idx ind).1 (inds.map .add)).records.length = _ := ih _
      rw [add_records, List.length_append, List.length_singleton] at hrest
      change (indexMachine.runFrom (add idx ind).1 (inds.map .add)).records.length = _
      rw [hrest, List.length_cons]
      omega
  refine indexMachine.run_induction (P := fun ops idx => idx.records.length ≤ addCount ops)
    (Nat.le_refl 0) ?_ ops
  intro ops op ih
  have hcount : addCount (ops ++ [op]) = addCount ops + (addedBy op).length := by
    rw [addCount_append, ← addsOf_eq]
    rfl
  rw [hcount]
  rcases (change_step (indexMachine.run ops) op).keepsIds with heq | ⟨-, hkeeps⟩
  · rw [heq, hadds]
    omega
  · have hlength := hkeeps.ids.length_le
    simp only [idsOf, List.length_map] at hlength
    omega

end PacketGuard.Ioc
