import PacketGuard.Ioc.Lookup

/-! # Maintenance is invisible, identifiers are stable

Compacting, rebuilding and a removal that is undone leave every answer as it
was.  The reason is the same for all three: what a lookup or a match answers is a
function of the active indicators, in slot order (`Lookup`), and the three leave
that list as it is.  Compacting drops inactive records and keeps the order of the
others; rebuilding leaves the records alone; a removal that is undone clears one
flag and sets it again.  The trie must have room for the nodes on the way
(`RunFits`), and since none of the three needs a node that was not needed before,
it has room afterwards when it had before.

An identifier keeps standing for the record it was issued for until a compaction
drops that record; from then on no operation knows it.  Slots do not last, since
compacting moves records, so both halves follow the identifier through the run:

* `Stands`: some record has the identifier, and the indicator it was issued for,
  in the role that the updates of the run have given it.  Every operation but a
  compaction of the inactive record keeps it (`Change.stands`).
* once the record is gone, no record has the identifier, and none gets it again,
  because an identifier that is handed out is larger than all before
  (`absent_runFrom`).  That takes fewer than `2 ^ 64` additions: `next_id_` wraps.

The contract (`Maintained`) puts these together for every run.
-/
namespace PacketGuard.Ioc
open PacketGuard.Core PacketGuard.Packet PacketGuard.Lib
open IndicatorIndex

/-! ## Answers -/

/-- A change that keeps activity and indicator of a record keeps the active
indicators. -/
theorem activeIndicators_modify (records : List IndexedIndicator) (slot : Nat)
    {f : IndexedIndicator → IndexedIndicator}
    (hf : ∀ rec, records[slot]? = some rec →
      (f rec).active = rec.active ∧ (f rec).indicator = rec.indicator) :
    activeIndicators (records.modify slot f) = activeIndicators records := by
  have hmap : (records.modify slot f).map (fun rec => (rec.active, rec.indicator)) =
      records.map fun rec => (rec.active, rec.indicator) := by
    apply List.ext_getElem?
    intro i
    simp only [List.getElem?_map, List.getElem?_modify]
    by_cases h : slot = i
    · subst h
      cases hget : records[slot]? with
      | none => rfl
      | some rec => simp [hf rec hget]
    · simp [h]
  have hfactor : ∀ rs : List IndexedIndicator, activeIndicators rs =
      ((rs.map fun rec => (rec.active, rec.indicator)).filter (·.1)).map Prod.snd := by
    intro rs
    simp [activeIndicators, List.filter_map, Function.comp_def]
  rw [hfactor, hmap, ← hfactor]

theorem activeIndicators_compact (idx : IndicatorIndex) :
    activeIndicators (compact idx).records = activeIndicators idx.records := by
  rw [compact_records, activeIndicators, List.filter_filter]
  simp [activeIndicators]

/-- The identifier stands for an active record. -/
def ActiveId (idx : IndicatorIndex) (id : Nat) : Prop :=
  ∃ slot rec, recordOf idx id = some (slot, rec) ∧ rec.active = true

theorem recordOf_changeRecord {idx : IndicatorIndex} {id slot : Nat} {rec : IndexedIndicator}
    (h : recordOf idx id = some (slot, rec)) (f : IndexedIndicator → IndexedIndicator) :
    recordOf (changeRecord idx slot f) id =
      some (slot, { f rec with generation := idx.generation }) := by
  unfold recordOf at h ⊢
  obtain ⟨slot', hslot, h⟩ := Option.bind_eq_some_iff.mp h
  obtain ⟨rec', hrec, heq⟩ := Option.map_eq_some_iff.mp h
  cases heq
  have hids : (changeRecord idx slot f).idToSlot = idx.idToSlot := by simp [changeRecord]
  rw [hids, hslot, changeRecord_records]
  simp [hrec]

/-- **A removal that is undone** leaves the active indicators as they were. -/
theorem activeIndicators_reactivate {idx : IndicatorIndex} {id : Nat} (hactive : ActiveId idx id) :
    activeIndicators (reactivateId (removeId idx id).1 id).1.records =
      activeIndicators idx.records := by
  obtain ⟨slot, rec, hrec, hon⟩ := hactive
  have hremove : removeId idx id =
      (changeRecord idx slot fun rec => { rec with active := false }, true) := by
    simp [removeId, hrec, hon]
  have hoff := recordOf_changeRecord hrec fun rec => { rec with active := false }
  have hback : reactivateId (removeId idx id).1 id =
      (changeRecord (changeRecord idx slot fun rec => { rec with active := false }) slot
        fun rec => { rec with active := true }, true) := by
    simp [reactivateId, hremove, hoff]
  rw [hback, changeRecord_records, changeRecord_records, List.modify_modify_eq]
  refine activeIndicators_modify _ _ fun rec' hrec' => ?_
  have hget : idx.records[slot]? = some rec := by
    obtain ⟨slot', -, h'⟩ := Option.bind_eq_some_iff.mp hrec
    obtain ⟨rec'', hget, heq⟩ := Option.map_eq_some_iff.mp h'
    cases heq
    exact hget
  rw [hget] at hrec'
  cases hrec'
  exact ⟨hon.symm, rfl⟩

/-- Removing makes no indicator active. -/
theorem mem_activeIndicators_removeId {idx : IndicatorIndex} {id : Nat} {ind : Indicator}
    (h : ind ∈ activeIndicators (removeId idx id).1.records) :
    ind ∈ activeIndicators idx.records := by
  unfold removeId at h
  split at h
  · exact h
  · split at h
    · exact h
    · simp only [changeRecord_records] at h
      obtain ⟨rec, hrec, rfl⟩ := List.mem_map.mp h
      obtain ⟨hmem, hon⟩ := List.mem_filter.mp hrec
      obtain ⟨i, hi⟩ := List.mem_iff_getElem?.mp hmem
      rw [List.getElem?_modify] at hi
      obtain ⟨rec', hrec', heq⟩ := Option.map_eq_some_iff.mp hi
      split at heq
      · rw [← heq] at hon
        cases hon
      · rw [← heq] at hon ⊢
        exact List.mem_map_of_mem (List.mem_filter.mpr ⟨List.mem_of_getElem? hrec', hon⟩)

/-- The operations `after` have a defined effect in the state that `ops` reach,
and no query can tell the states before and after them apart. -/
structure Invisible (ops after : List IndexOp) : Prop
    extends SameAnswers (indexMachine.run (ops ++ after)) (indexMachine.run ops) where
  defined : (indexMachine.run (ops ++ after)).faulted = false

/-- Operations that leave the active indicators as they were are invisible. -/
theorem invisible_of_active {ops after : List IndexOp} (hfits : RunFits (ops ++ after))
    (hactive : activeIndicators (indexMachine.run (ops ++ after)).records =
      activeIndicators (indexMachine.run ops).records) : Invisible ops after where
  toSameAnswers := sameAnswers_of_active (synced_run _) (synced_run _)
    (hfits _ List.prefix_rfl).nodes hactive
  defined := (faulted_run_iff _).mpr hfits

section
variable {ops : List IndexOp} (hfits : RunFits ops)
include hfits

theorem invisible_compact : Invisible ops [.compact] := by
  have hactive : activeIndicators (indexMachine.run (ops ++ [.compact])).records =
      activeIndicators (indexMachine.run ops).records := by
    rw [indexMachine.run_concat]
    exact activeIndicators_compact _
  refine invisible_of_active (hfits.concat fun ind hind => ?_) hactive
  rwa [← indexMachine.run_concat, hactive] at hind

theorem invisible_rebuild : Invisible ops [.rebuild] := by
  have hactive : activeIndicators (indexMachine.run (ops ++ [.rebuild])).records =
      activeIndicators (indexMachine.run ops).records := by
    rw [indexMachine.run_concat]
    exact congrArg activeIndicators (rebuild_records _)
  refine invisible_of_active (hfits.concat fun ind hind => ?_) hactive
  rwa [← indexMachine.run_concat, hactive] at hind

theorem invisible_reactivate {id : Nat} (hid : ActiveId (indexMachine.run ops) id) :
    Invisible ops [.removeId id, .reactivateId id] := by
  have hremoved : indexMachine.run (ops ++ [.removeId id]) =
      (removeId (indexMachine.run ops) id).1 :=
    indexMachine.run_concat ops _
  have hrun : indexMachine.run (ops ++ [.removeId id] ++ [.reactivateId id]) =
      (reactivateId (removeId (indexMachine.run ops) id).1 id).1 := by
    rw [indexMachine.run_concat, hremoved]
    rfl
  have hactive : activeIndicators
      (indexMachine.run (ops ++ [.removeId id] ++ [.reactivateId id])).records =
      activeIndicators (indexMachine.run ops).records := by
    rw [hrun]
    exact activeIndicators_reactivate hid
  have hremove : RunFits (ops ++ [.removeId id]) := hfits.concat fun _ =>
    mem_activeIndicators_removeId
  have hback : RunFits (ops ++ [.removeId id] ++ [.reactivateId id]) := by
    refine runFits_concat.mpr ⟨hremove, ?_⟩
    rw [hactive]
    exact hfits ops List.prefix_rfl
  rw [List.append_assoc] at hback hactive
  exact invisible_of_active hback hactive

end

/-! ## What the identifiers stand for -/

/-- Some record has the identifier and holds the indicator. -/
def Stands (idx : IndicatorIndex) (id : Nat) (ind : Indicator) : Prop :=
  ∃ (slot : Nat) (rec : IndexedIndicator),
    idx.records[slot]? = some rec ∧ rec.id = id ∧ rec.indicator = ind

/-- The role that an operation leaves to the record of `id`. -/
def roleStep (id : Nat) (role : ListRole) : IndexOp → ListRole
  | .updateRole id' role' => if id' = id then role' else role
  | _ => role

/-- The role after a run: the last one given by an `update_role` of `id`. -/
def roleAfter (id : Nat) (role : ListRole) (ops : List IndexOp) : ListRole :=
  ops.foldl (roleStep id) role

/-- A compaction of the run found the identifier inactive. -/
def CompactedInactive (idx : IndicatorIndex) (id : Nat) (ops : List IndexOp) : Prop :=
  ∃ before after, ops = before ++ .compact :: after ∧
    ¬ ActiveId (indexMachine.runFrom idx before) id

theorem stands_add {idx : IndicatorIndex} {id : Nat} {ind : Indicator} (h : Stands idx id ind)
    (ind' : Indicator) : Stands (add idx ind').1 id ind := by
  obtain ⟨slot, rec, hget, hid, hind⟩ := h
  refine ⟨slot, rec, ?_, hid, hind⟩
  rw [add_records]
  exact (List.getElem?_append_left (List.getElem?_eq_some_iff.mp hget).1).trans hget

theorem stands_addAll {idx : IndicatorIndex} {id : Nat} {ind : Indicator} (h : Stands idx id ind)
    (inds : List Indicator) : Stands (indexMachine.runFrom idx (inds.map .add)) id ind :=
  runFrom_adds (Stands · id ind) (fun _ ind' _ hstands => stands_add hstands ind') h

/-- A change of one record keeps what the identifiers of the others stand for. -/
theorem stands_changeRecord {idx : IndicatorIndex} {id slot : Nat} {rec : IndexedIndicator}
    (hget : idx.records[slot]? = some rec) (hid : rec.id = id) (slot' : Nat)
    {f : IndexedIndicator → IndexedIndicator} (hf : ∀ rec, (f rec).id = rec.id) :
    Stands (changeRecord idx slot' f) id
      (if slot' = slot then (f rec).indicator else rec.indicator) := by
  by_cases h : slot' = slot
  · subst h
    refine ⟨slot', { f rec with generation := idx.generation }, ?_, (hf rec).trans hid, ?_⟩
    · simp [hget]
    · simp
  · refine ⟨slot, rec, ?_, hid, ?_⟩
    · simp [h, hget]
    · simp [h]

theorem roleStep_keepsRoles {op : IndexOp} (h : KeepsRoles op) (id : Nat) (role : ListRole) :
    roleStep id role op = role := by
  cases op with
  | updateRole => cases h
  | _ => rfl

/-- **Step lemma.**  Until a compaction finds it inactive, an identifier keeps
standing for its indicator, whose role changes by `update_role` only. -/
theorem Change.stands {idx idx' : IndicatorIndex} {op : IndexOp} (hc : Change idx op idx') {n : Nat}
    (hs : Synced idx) (hi : Issued n idx) (hn : n < 2 ^ 64) {id : Nat} {ind : Indicator}
    (h : Stands idx id ind) (hactive : op = .compact → ActiveId idx id) :
    Stands idx' id { ind with role := roleStep id ind.role op } := by
  obtain ⟨slot, rec, hget, hid, rfl⟩ := h
  have hown : recordOf idx id = some (slot, rec) := (recordOf_eq_some hs hi hn).mpr ⟨hget, hid⟩
  cases hc with
  | adds hroles =>
    rw [roleStep_keepsRoles hroles]
    exact stands_addAll ⟨slot, rec, hget, hid, rfl⟩ (addedBy op)
  | switches slot' on hroles _ =>
    rw [roleStep_keepsRoles hroles]
    have hstands := stands_changeRecord hget hid slot'
      (f := fun rec => { rec with active := on }) fun _ => rfl
    simpa using hstands
  | @noRecord id' role hnone =>
    -- an identifier without a record is another one
    have hne : id' ≠ id := by
      rintro rfl
      cases hnone.symm.trans hown
    rw [roleStep, if_neg hne]
    exact ⟨slot, rec, hget, hid, rfl⟩
  | @role id' slot' rec' role hrec' =>
    have hstands := stands_changeRecord hget hid slot'
      (f := fun rec => { rec with indicator := { rec.indicator with role := role } }) fun _ => rfl
    -- records with different identifiers lie in different slots
    have hslot : slot' = slot ↔ id' = id := by
      constructor
      · rintro rfl
        obtain ⟨hget', hid'⟩ := (recordOf_eq_some hs hi hn).mp hrec'
        cases hget.symm.trans hget'
        exact hid'.symm.trans hid
      · rintro rfl
        cases hown.symm.trans hrec'
        rfl
    by_cases he : id' = id
    · simpa [roleStep, hslot, he] using hstands
    · simpa [roleStep, hslot, he] using hstands
  | rebuild =>
    refine ⟨slot, rec, ?_, hid, rfl⟩
    rw [rebuild_records]
    exact hget
  | compact =>
    obtain ⟨slot', rec', hrec', hon⟩ := hactive rfl
    cases hown.symm.trans hrec'
    have hmem : rec ∈ (IndicatorIndex.compact idx).records := by
      rw [compact_records]
      exact List.mem_filter.mpr ⟨List.mem_of_getElem? hget, hon⟩
    obtain ⟨slot', hget'⟩ := List.mem_iff_getElem?.mp hmem
    exact ⟨slot', rec, hget', hid, rfl⟩

/-- **Run lemma.** -/
theorem stands_runFrom {idx : IndicatorIndex} {n : Nat} (hs : Synced idx) (hi : Issued n idx)
    (ops : List IndexOp) (hn : n + addCount ops < 2 ^ 64) {id : Nat} {ind : Indicator}
    (h : Stands idx id ind) (hlive : ¬ CompactedInactive idx id ops) :
    Stands (indexMachine.runFrom idx ops) id { ind with role := roleAfter id ind.role ops } := by
  induction ops generalizing idx n ind with
  | nil => exact h
  | cons op ops ih =>
    have hcount : addCount (op :: ops) = addsOf op + addCount ops := by simp [addCount]
    have hstep := (change_step idx op).stands hs hi (by omega) h fun hop => by
      subst hop
      by_contra hinactive
      exact hlive ⟨[], ops, rfl, hinactive⟩
    refine ih (synced_step hs op) (issued_step hi op) (by omega) hstep ?_
    rintro ⟨before, after, rfl, hinactive⟩
    exact hlive ⟨op :: before, after, rfl, hinactive⟩

/-! ## Identifiers that are gone -/

/-- No operation knows the identifier. -/
structure Unknown (idx : IndicatorIndex) (id : Nat) : Prop where
  absent : id ∉ idsOf idx.records
  removeId : removeId idx id = (idx, false)
  reactivateId : reactivateId idx id = (idx, false)
  updateRole : ∀ role, updateRole idx id role = (idx, false)

theorem unknown_of_absent {idx : IndicatorIndex} {n : Nat} (hs : Synced idx) (hi : Issued n idx)
    (hn : n < 2 ^ 64) {id : Nat} (h : id ∉ idsOf idx.records) : Unknown idx id := by
  have hnone : recordOf idx id = none := by
    rcases hrec : recordOf idx id with _ | ⟨slot, rec⟩
    · rfl
    · obtain ⟨hget, hid⟩ := (recordOf_eq_some hs hi hn).mp hrec
      exact absurd (List.mem_map.mpr ⟨rec, List.mem_of_getElem? hget, hid⟩) h
  refine ⟨h, ?_, ?_, fun role => ?_⟩
  · simp [IndicatorIndex.removeId, hnone]
  · simp [IndicatorIndex.reactivateId, hnone]
  · simp [IndicatorIndex.updateRole, hnone]

theorem absent_add {idx : IndicatorIndex} {n : Nat} (hi : Issued n idx) (hn : n + 1 < 2 ^ 64)
    {id : Nat} (hid : id ≤ n) (h : id ∉ idsOf idx.records) (ind : Indicator) :
    id ∉ idsOf (add idx ind).1.records := by
  have hnext := hi.next
  have hids : idsOf (add idx ind).1.records = idsOf idx.records ++ [idx.nextId] := by
    simp [idsOf, newRecord]
  rw [hids, List.mem_append, List.mem_singleton]
  rintro (hmem | rfl)
  · exact h hmem
  · omega

theorem absent_addAll {idx : IndicatorIndex} {n : Nat} (hi : Issued n idx)
    (inds : List Indicator) (hn : n + inds.length < 2 ^ 64) {id : Nat} (hid : id ≤ n)
    (h : id ∉ idsOf idx.records) :
    id ∉ idsOf (indexMachine.runFrom idx (inds.map .add)).records := by
  induction inds generalizing idx n with
  | nil => exact h
  | cons ind inds ih =>
    rw [List.length_cons] at hn
    exact ih (issued_add hi ind) (by omega) (by omega) (absent_add hi (by omega) hid h ind)

/-- An identifier that was handed out and is gone never comes back. -/
theorem absent_runFrom {idx : IndicatorIndex} {n : Nat} (hi : Issued n idx) (ops : List IndexOp)
    (hn : n + addCount ops < 2 ^ 64) {id : Nat} (hid : id ≤ n) (h : id ∉ idsOf idx.records) :
    id ∉ idsOf (indexMachine.runFrom idx ops).records := by
  induction ops generalizing idx n with
  | nil => exact h
  | cons op ops ih =>
    have hcount : addCount (op :: ops) = addsOf op + addCount ops := by simp [addCount]
    refine ih (issued_step hi op) (by omega) (by omega) ?_
    rcases (change_step idx op).keepsIds with heq | ⟨-, hkeeps⟩
    · have hadds := addsOf_eq op
      rw [heq]
      exact absent_addAll hi (addedBy op) (by omega) hid h
    · exact fun hmem => h (hkeeps.ids.subset hmem)

/-- Compaction drops the identifiers that are not active. -/
theorem absent_compact {idx : IndicatorIndex} {n : Nat} (hs : Synced idx) (hi : Issued n idx)
    (hn : n < 2 ^ 64) {id : Nat} (hinactive : ¬ ActiveId idx id) :
    id ∉ idsOf (compact idx).records := by
  intro hmem
  obtain ⟨rec, hrec, hid⟩ := List.mem_map.mp hmem
  rw [compact_records] at hrec
  obtain ⟨hrec, hon⟩ := List.mem_filter.mp hrec
  obtain ⟨slot, hget⟩ := List.mem_iff_getElem?.mp hrec
  exact hinactive ⟨slot, rec, (recordOf_eq_some hs hi hn).mpr ⟨hget, hid⟩, hon⟩

/-! ## Identifiers that are handed out -/

/-- The identifiers that adding the indicators hands out, with what they are for. -/
def issuedAll (idx : IndicatorIndex) : List Indicator → List (Nat × Indicator)
  | [] => []
  | ind :: inds => ((add idx ind).2, ind) :: issuedAll (add idx ind).1 inds

/-- The identifiers that an operation hands out. -/
def issuedBy (idx : IndicatorIndex) : IndexOp → List (Nat × Indicator)
  | .add ind => issuedAll idx [ind]
  | .addSet set => issuedAll idx set.indicators
  | _ => []

/-- The identifiers that a run hands out, in order. -/
def issuedIn (idx : IndicatorIndex) : List IndexOp → List (Nat × Indicator)
  | [] => []
  | op :: ops => issuedBy idx op ++ issuedIn (indexMachine.step idx op) ops

theorem map_fst_issuedAll {idx : IndicatorIndex} {n : Nat} (hi : Issued n idx)
    (inds : List Indicator) (hn : n + inds.length < 2 ^ 64) :
    (issuedAll idx inds).map Prod.fst = List.range' (n + 1) inds.length := by
  induction inds generalizing idx n with
  | nil => rfl
  | cons ind inds ih =>
    rw [List.length_cons] at hn
    have hfirst : (add idx ind).2 = n + 1 := by
      show idx.nextId = n + 1
      rw [hi.next]
      omega
    rw [issuedAll, List.map_cons, ih (issued_add hi ind) (by omega), hfirst, List.length_cons,
      List.range'_succ]

/-- **A run hands out identifiers in order**, one for each indicator it adds. -/
theorem map_fst_issuedIn {idx : IndicatorIndex} {n : Nat} (hi : Issued n idx) (ops : List IndexOp)
    (hn : n + addCount ops < 2 ^ 64) :
    (issuedIn idx ops).map Prod.fst = List.range' (n + 1) (addCount ops) := by
  induction ops generalizing idx n with
  | nil => rfl
  | cons op ops ih =>
    have hcount : addCount (op :: ops) = addsOf op + addCount ops := by simp [addCount]
    have hop : (issuedBy idx op).map Prod.fst = List.range' (n + 1) (addsOf op) := by
      cases op with
      | add ind => exact map_fst_issuedAll hi [ind] (by simp [hcount, addsOf] at hn ⊢; omega)
      | addSet set =>
        exact map_fst_issuedAll hi set.indicators (by simp [hcount, addsOf] at hn; omega)
      | _ => rfl
    rw [issuedIn, List.map_append, hop, ih (issued_step hi op) (by omega), hcount,
      ← List.range'_append_1, show n + 1 + addsOf op = n + addsOf op + 1 by omega]

theorem stands_issuedAll {idx : IndicatorIndex} {inds : List Indicator} {id : Nat}
    {ind : Indicator} (h : (id, ind) ∈ issuedAll idx inds) :
    Stands (indexMachine.runFrom idx (inds.map .add)) id (completeNormalized ind) := by
  induction inds generalizing idx with
  | nil => cases h
  | cons ind' inds ih =>
    rcases List.mem_cons.mp h with heq | hmem
    · cases heq
      have hfirst : Stands (add idx ind).1 (add idx ind).2 (completeNormalized ind) :=
        ⟨idx.records.length, newRecord idx ind, by simp, rfl, rfl⟩
      exact stands_addAll hfirst inds
    · exact ih hmem

/-- An identifier stands for the indicator it was handed out for. -/
theorem stands_issuedBy {idx : IndicatorIndex} {op : IndexOp} {id : Nat} {ind : Indicator}
    (h : (id, ind) ∈ issuedBy idx op) :
    Stands (indexMachine.step idx op) id (completeNormalized ind) := by
  cases op with
  | add ind' => exact stands_issuedAll h
  | addSet set =>
    show Stands (addSet idx set).1 id _
    rw [addSet_eq_runFrom]
    exact stands_issuedAll h
  | _ => cases h

theorem completeNormalized_role (ind : Indicator) : (completeNormalized ind).role = ind.role := by
  unfold completeNormalized
  split
  · cases ind.type <;> rfl
  · rfl

/-! ## The contract -/

/-- What the index promises about maintenance in the state that a run reaches,
and about the identifiers handed out on the way. -/
structure Maintained (ops : List IndexOp) : Prop where
  defined : (indexMachine.run ops).faulted = false
  compact : Invisible ops [.compact]
  rebuild : Invisible ops [.rebuild]
  restore : ∀ id, ActiveId (indexMachine.run ops) id →
    Invisible ops [.removeId id, .reactivateId id]
  refers : ∀ before op after id ind, ops = before ++ op :: after →
    (id, ind) ∈ issuedBy (indexMachine.run before) op →
    ¬ CompactedInactive (indexMachine.run (before ++ [op])) id after →
    ∃ slot rec, recordOf (indexMachine.run ops) id = some (slot, rec) ∧
      rec.indicator = { completeNormalized ind with role := roleAfter id ind.role after }
  forgotten : ∀ before op after id ind, ops = before ++ op :: after →
    (id, ind) ∈ issuedBy (indexMachine.run before) op →
    CompactedInactive (indexMachine.run (before ++ [op])) id after →
    Unknown (indexMachine.run ops) id
  fresh : ((issuedIn indexMachine.init ops).map Prod.fst).Nodup

/-- **Maintenance is invisible and identifiers are stable**, in every run that
adds fewer than `2 ^ 64` indicators and that the trie has room for. -/
theorem maintained_run (ops : List IndexOp) (hn : addCount ops < 2 ^ 64) (hfits : RunFits ops) :
    Maintained ops := by
  have hs := synced_run ops
  have hi := issued_run ops
  have hsplit : ∀ before op after, ops = before ++ op :: after →
      indexMachine.run ops = indexMachine.runFrom (indexMachine.run (before ++ [op])) after ∧
        addCount ops = addCount (before ++ [op]) + addCount after := by
    rintro before op after rfl
    rw [← indexMachine.run_append, ← addCount_append, List.append_assoc, List.singleton_append]
    exact ⟨rfl, rfl⟩
  constructor
  · exact (faulted_run_iff ops).mpr hfits
  · exact invisible_compact hfits
  · exact invisible_rebuild hfits
  · exact fun id hactive => invisible_reactivate hfits hactive
  · intro before op after id ind hops hissued hlive
    obtain ⟨hrun, hcount⟩ := hsplit before op after hops
    have hstands := stands_issuedBy hissued
    rw [← indexMachine.run_concat] at hstands
    obtain ⟨slot, rec, hget, hid, hind⟩ := stands_runFrom (synced_run _) (issued_run _) after
      (by omega) hstands hlive
    rw [← hrun] at hget
    refine ⟨slot, rec, (recordOf_eq_some hs hi hn).mpr ⟨hget, hid⟩, ?_⟩
    rw [hind, completeNormalized_role]
  · intro before op after id ind hops hissued hcompacted
    obtain ⟨hrun, hcount⟩ := hsplit before op after hops
    obtain ⟨slot, rec, hget, hid, -⟩ := stands_issuedBy hissued
    rw [← indexMachine.run_concat] at hget
    have hbound : id ≤ addCount (before ++ [op]) :=
      ((issued_run (before ++ [op])).range (by omega) id
        (List.mem_map.mpr ⟨rec, List.mem_of_getElem? hget, hid⟩)).2
    obtain ⟨mid, rest, rfl, hinactive⟩ := hcompacted
    have hmid : addCount (mid ++ .compact :: rest) = addCount mid + addCount rest := by
      simp [addCount, addsOf]
    have hi' := issued_runFrom (issued_run (before ++ [op])) mid
    have habsent := absent_compact (synced_runFrom (synced_run (before ++ [op])) mid) hi'
      (by omega) hinactive
    have hgone := absent_runFrom (issued_step hi' .compact) rest
      (by simp only [addsOf]; omega) (by omega) habsent
    refine unknown_of_absent hs hi hn ?_
    rw [hrun]
    simpa [Machine.runFrom] using hgone
  · show ((issuedIn {} ops).map Prod.fst).Nodup
    rw [map_fst_issuedIn issued_init ops (by omega)]
    exact List.nodup_range'

/-- A removal, a compaction that drops the record, and another one that does not. -/
theorem maintained_run_removed : Maintained
    [.add { type := .domain, normalized := "evil.example".toList },
      .add { type := .cidr, cidr := some ⟨⟨0x0a000000⟩, 8⟩ },
      .removeId 1, .compact, .updateRole 2 .block, .compact] := by
  refine maintained_run _ (by decide) (runFits_of_few ?_ (by decide))
  simp [addedBy, ShortRange, pathKey, indexedRange, length_addressBits]

/-- A prefix of 33 bits shifts by more than the source can, and one node more than
an `int` can name leaves the node array. -/
theorem not_maintained_overfull :
    ¬ Maintained [.add { type := .cidr, cidr := some ⟨⟨0⟩, 33⟩ }] ∧ ¬ Maintained overfull := by
  constructor
  · intro h
    have hfits := (faulted_run_iff _).mp h.defined
    have hshort := (hfits _ List.prefix_rfl).short { type := .cidr, cidr := some ⟨⟨0⟩, 33⟩ }
      List.mem_cons_self _ rfl
    rw [length_addressBits] at hshort
    exact absurd hshort (by decide)
  · intro h
    exact Bool.false_ne_true (h.defined.symm.trans faulted_overfull)

end PacketGuard.Ioc
