import Mathlib

/-! Maps built by reading a list of key/value entries from left to right:
`fileAll` files every value under its key, `enterAll` lets a later entry
replace an earlier one.  Both are described by the entries of each key. -/
namespace PacketGuard.Lib
open Std

variable {κ σ τ : Type} [Ord κ] [TransOrd κ] [LawfulEqOrd κ] [DecidableEq κ]

/-- The values filed under each key, oldest first. -/
abbrev Multimap (κ σ : Type) [Ord κ] := ExtTreeMap κ (List σ) compare

/-- File `v` under `k`, after the values that are already there. -/
def Multimap.push (m : Multimap κ σ) (k : κ) (v : σ) : Multimap κ σ :=
  m.alter k (fun vs => some (vs.getD [] ++ [v]))

/-- The values among `entries` with key `k`, in order. -/
def valuesOf (k : κ) (entries : List (κ × σ)) : List σ :=
  (entries.filter (fun e => e.1 = k)).map Prod.snd

/-- File all entries, from left to right. -/
def fileAll (entries : List (κ × σ)) : Multimap κ σ :=
  entries.foldl (fun m e => Multimap.push m e.1 e.2) ∅

/-- Enter all entries, from left to right; a later value replaces an earlier one. -/
def enterAll (entries : List (κ × σ)) : ExtTreeMap κ σ compare :=
  entries.foldl (fun m e => m.insert e.1 e.2) ∅

omit [Ord κ] [TransOrd κ] [LawfulEqOrd κ] in
@[simp] theorem valuesOf_nil (k : κ) : valuesOf k ([] : List (κ × σ)) = [] := rfl

omit [Ord κ] [TransOrd κ] [LawfulEqOrd κ] in
theorem valuesOf_concat (k : κ) (entries : List (κ × σ)) (e : κ × σ) :
    valuesOf k (entries ++ [e]) = valuesOf k entries ++ if e.1 = k then [e.2] else [] := by
  by_cases h : e.1 = k <;> simp [valuesOf, h]

omit [Ord κ] [TransOrd κ] [LawfulEqOrd κ] in
theorem valuesOf_map (k : κ) (entries : List (κ × σ)) (f : σ → τ) :
    valuesOf k (entries.map fun e => (e.1, f e.2)) = (valuesOf k entries).map f := by
  simp [valuesOf, List.filter_map, Function.comp_def]

omit [LawfulEqOrd κ] [DecidableEq κ] in
theorem fileAll_concat (entries : List (κ × σ)) (e : κ × σ) :
    fileAll (entries ++ [e]) = Multimap.push (fileAll entries) e.1 e.2 := by
  simp [fileAll]

omit [LawfulEqOrd κ] [DecidableEq κ] in
theorem enterAll_concat (entries : List (κ × σ)) (e : κ × σ) :
    enterAll (entries ++ [e]) = (enterAll entries).insert e.1 e.2 := by
  simp [enterAll]

/-- A key is filed exactly when some entry has it, with the values of its entries. -/
theorem getElem?_fileAll (entries : List (κ × σ)) (k : κ) :
    (fileAll entries)[k]? =
      if valuesOf k entries = [] then none else some (valuesOf k entries) := by
  induction entries using List.reverseRecOn with
  | nil => simp [fileAll]
  | append_singleton entries e ih =>
    rw [fileAll_concat, Multimap.push, ExtTreeMap.getElem?_alter, valuesOf_concat]
    by_cases h : e.1 = k
    · subst h
      by_cases hv : valuesOf e.1 entries = [] <;> simp [ih, hv]
    · simp [h, ih]

theorem getD_getElem?_fileAll (entries : List (κ × σ)) (k : κ) :
    (fileAll entries)[k]?.getD [] = valuesOf k entries := by
  rw [getElem?_fileAll]
  by_cases h : valuesOf k entries = [] <;> simp [h]

/-- The map depends on the entries of each key alone. -/
theorem fileAll_congr {entries entries' : List (κ × σ)}
    (h : ∀ k, valuesOf k entries = valuesOf k entries') :
    fileAll entries = fileAll entries' := by
  apply ExtTreeMap.ext_getElem?
  intro k
  rw [getElem?_fileAll, getElem?_fileAll, h k]

/-- The entered value of a key is that of its last entry. -/
theorem getElem?_enterAll (entries : List (κ × σ)) (k : κ) :
    (enterAll entries)[k]? = (valuesOf k entries).getLast? := by
  induction entries using List.reverseRecOn with
  | nil => simp [enterAll]
  | append_singleton entries e ih =>
    rw [enterAll_concat, ExtTreeMap.getElem?_insert, valuesOf_concat]
    by_cases h : e.1 = k <;> simp [h, ih]

omit [Ord κ] [TransOrd κ] [LawfulEqOrd κ] in
theorem mem_valuesOf {k : κ} {entries : List (κ × σ)} {v : σ} :
    v ∈ valuesOf k entries ↔ (k, v) ∈ entries := by
  constructor
  · intro h
    obtain ⟨e, he, rfl⟩ := List.mem_map.mp h
    obtain ⟨he, hk⟩ := List.mem_filter.mp he
    rw [decide_eq_true_eq] at hk
    rw [← hk]
    exact he
  · intro h
    exact List.mem_map.mpr ⟨(k, v), List.mem_filter.mpr ⟨h, by simp⟩, rfl⟩

theorem mem_of_getElem?_enterAll {entries : List (κ × σ)} {k : κ} {v : σ}
    (h : (enterAll entries)[k]? = some v) : (k, v) ∈ entries := by
  rw [getElem?_enterAll] at h
  exact mem_valuesOf.mp (List.mem_of_getLast? h)

theorem exists_getElem?_enterAll {entries : List (κ × σ)} {k : κ} {v : σ} (h : (k, v) ∈ entries) :
    ∃ v', (enterAll entries)[k]? = some v' := by
  rw [getElem?_enterAll]
  exact ⟨_, List.getLast?_eq_some_getLast (List.ne_nil_of_mem (mem_valuesOf.mpr h))⟩

/-- Entries with distinct keys are all entered. -/
theorem getElem?_enterAll_of_nodup {entries : List (κ × σ)} (hn : (entries.map Prod.fst).Nodup)
    {k : κ} {v : σ} : (enterAll entries)[k]? = some v ↔ (k, v) ∈ entries := by
  refine ⟨mem_of_getElem?_enterAll, fun h => ?_⟩
  obtain ⟨v', hv'⟩ := exists_getElem?_enterAll h
  have hmem := mem_of_getElem?_enterAll hv'
  have heq : (k, v) = (k, v') := List.inj_on_of_nodup_map hn h hmem rfl
  rw [hv', (Prod.mk.inj heq).2]

theorem mem_keys_fileAll {entries : List (κ × σ)} {k : κ} :
    k ∈ (fileAll entries).keys ↔ k ∈ entries.map Prod.fst := by
  rw [ExtTreeMap.mem_keys, ← ExtTreeMap.isSome_getElem?_iff_mem, getElem?_fileAll, List.mem_map]
  constructor
  · intro h
    have hne : valuesOf k entries ≠ [] := by
      intro hnone
      rw [if_pos hnone] at h
      cases h
    obtain ⟨v, hv⟩ := List.exists_mem_of_ne_nil _ hne
    exact ⟨(k, v), mem_valuesOf.mp hv, rfl⟩
  · rintro ⟨⟨k, v⟩, he, rfl⟩
    rw [if_neg (List.ne_nil_of_mem (mem_valuesOf.mpr he))]
    rfl

omit [DecidableEq κ] in
theorem toList_eq_map_keys (m : Multimap κ σ) :
    m.toList = m.keys.map (fun k => (k, m[k]?.getD [])) := by
  rw [← ExtTreeMap.map_fst_toList_eq_keys, List.map_map]
  symm
  conv_rhs => rw [← List.map_id m.toList]
  apply List.map_congr_left
  rintro ⟨k, vs⟩ h
  have hk := ExtTreeMap.mem_toList_iff_getElem?_eq_some.mp h
  simp [hk]

omit [Ord κ] [TransOrd κ] [LawfulEqOrd κ] in
/-- Reading the entries key by key, for distinct keys, reads the same entries as
reading them in order. -/
theorem perm_flatMap_valuesOf (entries : List (κ × σ)) (keys : List κ) (hn : keys.Nodup) :
    (keys.flatMap fun k => valuesOf k entries).Perm
      ((entries.filter fun e => e.1 ∈ keys).map Prod.snd) := by
  induction keys with
  | nil => simp
  | cons k keys ih =>
    obtain ⟨hk, hn⟩ := List.nodup_cons.mp hn
    rw [List.flatMap_cons]
    refine ((ih hn).append_left _).trans ?_
    rw [valuesOf, ← List.map_append]
    apply List.Perm.map
    have hone : ∀ e ∈ entries,
        decide (e.1 = k) = (decide (e.1 = k) && decide (e.1 ∈ k :: keys)) := by
      intro e _
      by_cases he : e.1 = k <;> simp [he]
    have hrest : ∀ e ∈ entries,
        decide (e.1 ∈ keys) = (!decide (e.1 = k) && decide (e.1 ∈ k :: keys)) := by
      intro e _
      by_cases he : e.1 = k <;> simp [he, hk]
    rw [List.filter_congr hone, List.filter_congr hrest, ← List.filter_filter,
      ← List.filter_filter]
    exact List.filter_append_perm _ _

/-- The filed values whose key satisfies `p`, read key by key, are those of the
entries whose key satisfies `p`. -/
theorem perm_flatMap_fileAll (entries : List (κ × σ)) (p : κ → Bool) :
    ((fileAll entries).toList.flatMap fun kv => if p kv.1 then kv.2 else []).Perm
      ((entries.filter fun e => p e.1).map Prod.snd) := by
  have hkeys : ((fileAll entries).keys.filter p).Nodup :=
    (ExtTreeMap.nodup_keys).filter _
  have hsome : ∀ e ∈ entries,
      decide (e.1 ∈ (fileAll entries).keys.filter p) = p e.1 := by
    intro e he
    have hmem : e.1 ∈ (fileAll entries).keys := mem_keys_fileAll.mpr (List.mem_map_of_mem he)
    by_cases hp : p e.1 <;> simp [hp, hmem]
  rw [toList_eq_map_keys, List.flatMap_map]
  simp only [getD_getElem?_fileAll]
  rw [← List.filter_congr hsome]
  refine List.Perm.trans (List.Perm.of_eq ?_)
    (perm_flatMap_valuesOf entries ((fileAll entries).keys.filter p) hkeys)
  induction (fileAll entries).keys with
  | nil => rfl
  | cons k keys ih => by_cases hp : p k <;> simp [hp, ih]

/-- What is said of each key and its values. -/
theorem mem_flatMap_fileAll {entries : List (κ × σ)} {f : κ × List σ → List τ} {x : τ} :
    x ∈ (fileAll entries).toList.flatMap f ↔
      ∃ k, valuesOf k entries ≠ [] ∧ x ∈ f (k, valuesOf k entries) := by
  rw [List.mem_flatMap]
  constructor
  · rintro ⟨⟨k, vs⟩, hmem, hx⟩
    rw [ExtTreeMap.mem_toList_iff_getElem?_eq_some, getElem?_fileAll] at hmem
    by_cases hnone : valuesOf k entries = []
    · rw [if_pos hnone] at hmem
      cases hmem
    · rw [if_neg hnone] at hmem
      cases hmem
      exact ⟨k, hnone, hx⟩
  · rintro ⟨k, hsome, hx⟩
    refine ⟨(k, valuesOf k entries), ?_, hx⟩
    rw [ExtTreeMap.mem_toList_iff_getElem?_eq_some, getElem?_fileAll, if_neg hsome]

/-- A report of the keys with several values: it names the key and its values. -/
theorem mem_severalReports_fileAll {entries : List (κ × σ)} {report : κ × List σ → τ} {x : τ} :
    (x ∈ (fileAll entries).toList.flatMap fun kv => if 1 < kv.2.length then [report kv] else []) ↔
      ∃ k, 1 < (valuesOf k entries).length ∧ x = report (k, valuesOf k entries) := by
  rw [mem_flatMap_fileAll]
  constructor
  · rintro ⟨k, -, hx⟩
    by_cases hlength : 1 < (valuesOf k entries).length
    · rw [if_pos hlength] at hx
      exact ⟨k, hlength, List.mem_singleton.mp hx⟩
    · rw [if_neg hlength] at hx
      cases hx
  · rintro ⟨k, hlength, rfl⟩
    refine ⟨k, List.ne_nil_of_length_pos (Nat.zero_lt_of_lt hlength), ?_⟩
    rw [if_pos hlength]
    exact List.mem_singleton_self _

/-! ## Keys in order -/

/-- A map has as many keys as the entries have different ones. -/
theorem size_fileAll (entries : List (κ × σ)) :
    (fileAll entries).size = (entries.map Prod.fst).toFinset.card := by
  have hkeys : (fileAll entries).keys.toFinset = (entries.map Prod.fst).toFinset := by
    ext k
    rw [List.mem_toFinset, List.mem_toFinset, mem_keys_fileAll]
  rw [← hkeys, List.toFinset_card_of_nodup ExtTreeMap.nodup_keys, ExtTreeMap.length_keys]

/-- Numbers are listed in their order, each once. -/
theorem keys_fileAll (entries : List (Nat × σ)) :
    (fileAll entries).keys = (entries.map Prod.fst).toFinset.sort (· ≤ ·) := by
  have hsorted : (fileAll entries).keys.Pairwise (· < ·) := ExtTreeMap.ordered_keys.imp fun h =>
    Nat.compare_eq_lt.mp h
  refine hsorted.eq_of_mem_iff (Finset.sortedLT_sort _).pairwise fun k => ?_
  rw [mem_keys_fileAll, Finset.mem_sort, List.mem_toFinset]

/-! ## Renamed keys -/

section
variable {κ' : Type} [Ord κ'] [TransOrd κ'] [LawfulEqOrd κ'] [DecidableEq κ']

/-- Keys that are renamed in their order stay in order. -/
theorem toList_fileAll_map {f : κ → κ'} (hf : ∀ a b, compare (f a) (f b) = compare a b)
    (entries : List (κ × σ)) :
    (fileAll (entries.map fun e => (f e.1, e.2))).toList = (fileAll entries).toList.map fun kv =>
    (f kv.1, kv.2) := by
  have hinj : Function.Injective f := by
    intro a b h
    have heq : compare (f a) (f b) = .eq := by
      rw [h]
      exact ReflOrd.compare_self
    rw [hf] at heq
    exact LawfulEqOrd.eq_of_compare heq
  have hvalues : ∀ k, valuesOf (f k) (entries.map fun e => (f e.1, e.2)) = valuesOf k entries := by
    intro k
    simp [valuesOf, List.filter_map, Function.comp_def, hinj.eq_iff]
  have hlookup : ∀ k, (fileAll (entries.map fun e => (f e.1, e.2)))[f k]? =
      (fileAll entries)[k]? := by
    intro k
    rw [getElem?_fileAll, getElem?_fileAll, hvalues]
  have hmem : ∀ p, p ∈ (fileAll (entries.map fun e => (f e.1, e.2))).toList ↔
      p ∈ (fileAll entries).toList.map fun kv => (f kv.1, kv.2) := by
    rintro ⟨k', vs⟩
    rw [List.mem_map, ExtTreeMap.mem_toList_iff_getElem?_eq_some]
    constructor
    · intro h
      -- the key of a value is one of the renamed keys
      have hsome : valuesOf k' (entries.map fun e => (f e.1, e.2)) ≠ [] := by
        intro hnone
        rw [getElem?_fileAll, if_pos hnone] at h
        cases h
      obtain ⟨v, hv⟩ := List.exists_mem_of_ne_nil _ hsome
      obtain ⟨e, -, he⟩ := List.mem_map.mp (mem_valuesOf.mp hv)
      obtain rfl : f e.1 = k' := (Prod.mk.inj he).1
      rw [hlookup] at h
      exact ⟨(e.1, vs), ExtTreeMap.mem_toList_iff_getElem?_eq_some.mpr h, rfl⟩
    · rintro ⟨⟨k, vs'⟩, h, heq⟩
      cases heq
      rw [hlookup]
      exact ExtTreeMap.mem_toList_iff_getElem?_eq_some.mp h
  have hordered : ((fileAll entries).toList.map fun kv => (f kv.1, kv.2)).Pairwise
      fun a b => compare a.1 b.1 = .lt := by
    rw [List.pairwise_map]
    simp only [hf]
    exact ExtTreeMap.ordered_keys_toList
  have hnodup : ∀ {items : List (κ' × List σ)}, (items.Pairwise fun a b => compare a.1 b.1 = .lt) →
      items.Nodup := by
    intro items h
    refine h.imp fun {a b} hlt heq => ?_
    rw [heq, ReflOrd.compare_self] at hlt
    cases hlt
  refine List.Perm.eq_of_pairwise ?_ ExtTreeMap.ordered_keys_toList hordered
    ((List.perm_ext_iff_of_nodup (hnodup ExtTreeMap.ordered_keys_toList) (hnodup hordered)).mpr
      hmem)
  intro a b _ _ hab hba
  rw [OrientedOrd.eq_swap, hba] at hab
  cases hab

end

end PacketGuard.Lib
