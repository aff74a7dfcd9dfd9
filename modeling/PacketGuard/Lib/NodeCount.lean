import PacketGuard.Lib.NodeTrie

/-! # How many nodes a trie has

A trie that is filed from entries has one node for every initial segment of
their paths, and no other: each node lies at the end of exactly one path, and
descending adds the initial segments of its path only.
-/
namespace PacketGuard.Lib.NodeTrie
variable {σ : Type}

/-- The path leads to a node. -/
def HasPath (t : NodeTrie σ) (q : List Bool) : Prop := (follow t 0 q).isSome

/-- Every node lies at the end of a path. -/
def AllReached (t : NodeTrie σ) : Prop := ∀ i < t.length, ∃ q, follow t 0 q = some i

/-- The initial segments of the paths, the empty one included. -/
def prefixes (paths : List (List Bool)) : Finset (List Bool) :=
  ([] :: paths.flatMap List.inits).toFinset

theorem mem_prefixes {paths : List (List Bool)} {q : List Bool} :
    q ∈ prefixes paths ↔ q = [] ∨ ∃ p ∈ paths, q <+: p := by
  simp [prefixes]

/-- Each path adds its initial segments, at most. -/
theorem card_prefixes_le {paths : List (List Bool)} {n : Nat} (h : ∀ p ∈ paths, p.length ≤ n) :
    (prefixes paths).card ≤ 1 + (n + 1) * paths.length := by
  refine (List.toFinset_card_le _).trans ?_
  rw [List.length_cons]
  have hsum : (paths.flatMap List.inits).length ≤ (n + 1) * paths.length := by
    induction paths with
    | nil => exact Nat.le_refl _
    | cons p paths ih =>
      have hp := h p List.mem_cons_self
      have hrest := ih fun q hq => h q (List.mem_cons_of_mem _ hq)
      rw [List.flatMap_cons, List.length_append, List.length_inits, List.length_cons, Nat.mul_add]
      omega
  omega

/-! ## Growing and descending -/

section Grow
variable {t : NodeTrie σ} (h : Shaped t) {node : Nat} {pre : List Bool} {b : Bool}
  (hpre : follow t 0 pre = some node) (hb : childOf t node b = none)
include h hpre hb

/-- The new node lies behind the old one. -/
theorem follow_grow_new : follow (grow t node b) 0 (pre ++ [b]) = some t.length := by
  have hn := h.follow_lt hpre
  rw [follow_concat, follow_grow_of_some hn hb hpre]
  simp [childOf_grow hn]

theorem hasPath_grow (q : List Bool) :
    HasPath (grow t node b) q ↔ HasPath t q ∨ q = pre ++ [b] := by
  have hn := h.follow_lt hpre
  have hnew := follow_grow_new h hpre hb
  unfold HasPath
  constructor
  · intro hq
    obtain ⟨n, hq⟩ := Option.isSome_iff_exists.mp hq
    cases hold : follow t 0 q with
    | some k => exact Or.inl rfl
    | none =>
      rw [follow_grow_of_none hn hb hold hq] at hq
      exact Or.inr ((h.grow hn).follow_inj hq hnew)
  · rintro (hq | rfl)
    · obtain ⟨n, hq⟩ := Option.isSome_iff_exists.mp hq
      rw [follow_grow_of_some hn hb hq]
      rfl
    · rw [hnew]
      rfl

theorem allReached_grow (hall : AllReached t) : AllReached (grow t node b) := by
  have hn := h.follow_lt hpre
  intro i hi
  rw [length_grow] at hi
  by_cases hold : i < t.length
  · obtain ⟨q, hq⟩ := hall i hold
    exact ⟨q, follow_grow_of_some hn hb hq⟩
  · obtain rfl : i = t.length := by omega
    exact ⟨_, follow_grow_new h hpre hb⟩

end Grow

/-- Descending only adds nodes. -/
theorem length_le_length_descend (t : NodeTrie σ) (node : Nat) (path : List Bool) :
    t.length ≤ (descend t node path).1.length := by
  induction path generalizing t node with
  | nil => exact Nat.le_refl _
  | cons b path ih =>
    rw [descend]
    cases childOf t node b with
    | some next => exact ih t next
    | none =>
      have hmore := ih (grow t node b) t.length
      rw [length_grow] at hmore
      exact Nat.le_of_succ_le hmore

/-- The segments of `b :: path` behind `pre` are the empty one and those that go
through `b`. -/
theorem segment_cons_iff {pre path q : List Bool} {b : Bool} :
    (∃ p, p <+: b :: path ∧ q = pre ++ p) ↔
      q = pre ∨ ∃ p, p <+: path ∧ q = pre ++ [b] ++ p := by
  simp only [List.prefix_cons_iff]
  constructor
  · rintro ⟨p, rfl | ⟨p, rfl, hp⟩, rfl⟩
    · exact Or.inl (List.append_nil pre)
    · exact Or.inr ⟨p, hp, by simp⟩
  · rintro (rfl | ⟨p, hp, rfl⟩)
    · exact ⟨[], Or.inl rfl, (List.append_nil q).symm⟩
    · exact ⟨b :: p, Or.inr ⟨p, rfl, hp⟩, by simp⟩

/-- Descending adds the initial segments of its path. -/
theorem hasPath_descend {t : NodeTrie σ} (h : Shaped t) (hall : AllReached t) (path : List Bool)
    {node : Nat} {pre : List Bool} (hpre : follow t 0 pre = some node) :
    AllReached (descend t node path).1 ∧
      ∀ q, HasPath (descend t node path).1 q ↔ HasPath t q ∨ ∃ p, p <+: path ∧ q = pre ++ p := by
  induction path generalizing t node pre with
  | nil =>
    refine ⟨hall, fun q => ⟨Or.inl, ?_⟩⟩
    rintro (hq | ⟨p, hp, rfl⟩)
    · exact hq
    · rw [List.prefix_nil.mp hp, List.append_nil, HasPath]
      exact Option.isSome_iff_exists.mpr ⟨node, hpre⟩
  | cons b path ih =>
    have hn := h.follow_lt hpre
    have hhere : HasPath t pre := Option.isSome_iff_exists.mpr ⟨node, hpre⟩
    cases hb : childOf t node b with
    | some next =>
      have hnext : follow t 0 (pre ++ [b]) = some next := by
        rw [follow_concat, hpre]
        exact hb
      obtain ⟨hall', hpaths⟩ := ih h hall hnext
      simp only [descend, hb]
      refine ⟨hall', fun q => ?_⟩
      rw [hpaths, segment_cons_iff, ← or_assoc, or_iff_left_of_imp (a := HasPath t q) (b := q = pre)
        (by rintro rfl; exact hhere)]
    | none =>
      obtain ⟨hall', hpaths⟩ := ih (h.grow hn) (allReached_grow h hpre hb hall)
        (follow_grow_new h hpre hb)
      simp only [descend, hb]
      refine ⟨hall', fun q => ?_⟩
      rw [hpaths, hasPath_grow h hpre hb, segment_cons_iff, or_assoc]
      constructor
      · rintro (hq | rfl | hq)
        · exact Or.inl hq
        · exact Or.inr (Or.inr ⟨[], List.nil_prefix, (List.append_nil _).symm⟩)
        · exact Or.inr (Or.inr hq)
      · rintro (hq | rfl | hq)
        · exact Or.inl hq
        · exact Or.inl hhere
        · exact Or.inr (Or.inr hq)

/-! ## Filing -/

theorem length_store (t : NodeTrie σ) (node : Nat) (item : σ) :
    (store t node item).length = t.length := by
  simp [store]

/-- Filing adds the initial segments of its path. -/
theorem hasPath_insert {t : NodeTrie σ} (h : Shaped t) (hall : AllReached t) (path : List Bool)
    (item : σ) :
    AllReached (insert t path item) ∧ ∀ q, HasPath (insert t path item) q ↔ HasPath t q ∨
      q <+: path := by
  obtain ⟨hall', hpaths⟩ := hasPath_descend h hall path (rfl : follow t 0 [] = some 0)
  constructor
  · intro i hi
    rw [insert, length_store] at hi
    obtain ⟨q, hq⟩ := hall' i hi
    exact ⟨q, by rw [insert, follow_store, hq]⟩
  · intro q
    have hq := hpaths q
    simp only [List.nil_append, exists_eq_right'] at hq
    rw [← hq, HasPath, HasPath, insert, follow_store]

theorem hasPath_ofEntries (entries : List (List Bool × σ)) :
    AllReached (ofEntries entries) ∧ ∀ q, HasPath (ofEntries entries) q ↔
      q ∈ prefixes (entries.map Prod.fst) := by
  induction entries using List.reverseRecOn with
  | nil =>
    constructor
    · intro i hi
      obtain rfl : i = 0 := Nat.lt_one_iff.mp hi
      exact ⟨[], rfl⟩
    · intro q
      rw [mem_prefixes]
      cases q with
      | nil => simp [HasPath, follow]
      | cons b q => simp [HasPath, follow, ofEntries, childOf, TrieNode.empty]
  | append_singleton entries e ih =>
    obtain ⟨hall, hpaths⟩ := hasPath_insert (shaped_ofEntries entries) ih.1 e.1 e.2
    rw [ofEntries_concat]
    refine ⟨hall, fun q => ?_⟩
    rw [hpaths, ih.2, mem_prefixes, mem_prefixes, or_assoc]
    simp only [List.map_append, List.mem_append, List.map_cons, List.map_nil, List.mem_singleton,
      or_and_right, exists_or, exists_eq_left]

/-- **One node for every initial segment**, and no other. -/
theorem length_ofEntries (entries : List (List Bool × σ)) :
    (ofEntries entries).length = (prefixes (entries.map Prod.fst)).card := by
  obtain ⟨hall, hpaths⟩ := hasPath_ofEntries entries
  have hshaped := shaped_ofEntries entries
  -- each segment is sent to the node at its end
  have himage : (prefixes (entries.map Prod.fst)).image
      (fun q => (follow (ofEntries entries) 0 q).getD 0) =
      Finset.range (ofEntries entries).length := by
    ext i
    rw [Finset.mem_image, Finset.mem_range]
    constructor
    · rintro ⟨q, hq, rfl⟩
      obtain ⟨n, hn⟩ := Option.isSome_iff_exists.mp ((hpaths q).mpr hq)
      rw [hn]
      exact hshaped.follow_lt hn
    · intro hi
      obtain ⟨q, hq⟩ := hall i hi
      exact ⟨q, (hpaths q).mp (Option.isSome_iff_exists.mpr ⟨i, hq⟩), by rw [hq]; rfl⟩
  rw [← Finset.card_range (ofEntries entries).length, ← himage, Finset.card_image_of_injOn]
  intro p hp q hq heq
  obtain ⟨n, hn⟩ := Option.isSome_iff_exists.mp ((hpaths p).mpr hp)
  obtain ⟨m, hm⟩ := Option.isSome_iff_exists.mp ((hpaths q).mpr hq)
  simp only [hn, hm, Option.getD_some] at heq
  exact hshaped.follow_inj hn (heq ▸ hm)

/-! ## Full tries -/

/-- All paths of `d` branches. -/
def fullPaths : Nat → List (List Bool)
  | 0 => [[]]
  | d + 1 => (fullPaths d).map (List.cons false) ++ (fullPaths d).map (List.cons true)

theorem mem_fullPaths {d : Nat} {p : List Bool} : p ∈ fullPaths d ↔ p.length = d := by
  induction d generalizing p with
  | zero => simp [fullPaths]
  | succ d ih =>
    cases p with
    | nil => simp [fullPaths]
    | cons b p => cases b <;> simp [fullPaths, ih]

theorem mem_prefixes_fullPaths {d : Nat} {q : List Bool} :
    q ∈ prefixes (fullPaths d) ↔ q.length ≤ d := by
  rw [mem_prefixes]
  constructor
  · rintro (rfl | ⟨p, hp, hq⟩)
    · exact Nat.zero_le d
    · exact hq.length_le.trans (mem_fullPaths.mp hp).le
  · intro hlength
    refine Or.inr ⟨q ++ List.replicate (d - q.length) false, mem_fullPaths.mpr ?_,
      List.prefix_append _ _⟩
    rw [List.length_append, List.length_replicate]
    omega

/-- A full trie has `2 ^ (d + 1) - 1` nodes. -/
theorem card_prefixes_fullPaths (d : Nat) : (prefixes (fullPaths d)).card + 1 = 2 ^ (d + 1) := by
  induction d with
  | zero => rfl
  | succ d ih =>
    -- besides the root there are the nodes behind either branch
    have hsplit : prefixes (fullPaths (d + 1)) =
        Insert.insert [] ((prefixes (fullPaths d)).image (List.cons false) ∪
          (prefixes (fullPaths d)).image (List.cons true)) := by
      ext q
      rw [mem_prefixes_fullPaths]
      cases q with
      | nil => simp
      | cons b q => cases b <;> simp [mem_prefixes_fullPaths]
    have hroot : ([] : List Bool) ∉ (prefixes (fullPaths d)).image (List.cons false) ∪
        (prefixes (fullPaths d)).image (List.cons true) := by simp
    have hbranches : Disjoint ((prefixes (fullPaths d)).image (List.cons false))
        ((prefixes (fullPaths d)).image (List.cons true)) := by
      rw [Finset.disjoint_left]
      intro q hfalse htrue
      obtain ⟨p, -, rfl⟩ := Finset.mem_image.mp hfalse
      obtain ⟨p', -, heq⟩ := Finset.mem_image.mp htrue
      cases heq
    rw [hsplit, Finset.card_insert_of_notMem hroot, Finset.card_union_of_disjoint hbranches,
      Finset.card_image_of_injective _ (List.cons_injective),
        Finset.card_image_of_injective _ (List.cons_injective),
      pow_succ]
    omega

/-- A path that is one branch longer than a node's adds one node. -/
theorem card_prefixes_concat {paths : List (List Bool)} {p : List Bool} {b : Bool}
    (hp : p ∈ prefixes paths)
    (hnew : p ++ [b] ∉ prefixes paths) :
    (prefixes (paths ++ [p ++ [b]])).card = (prefixes paths).card + 1 := by
  have hclosed : ∀ q, q <+: p → q ∈ prefixes paths := by
    intro q hq
    rw [mem_prefixes] at hp ⊢
    rcases hp with rfl | ⟨p', hp', hle⟩
    · exact Or.inl (List.prefix_nil.mp hq)
    · exact Or.inr ⟨p', hp', hq.trans hle⟩
  have hinsert : prefixes (paths ++ [p ++ [b]]) = Insert.insert (p ++ [b]) (prefixes paths) := by
    ext q
    rw [Finset.mem_insert, mem_prefixes]
    constructor
    · rintro (rfl | ⟨p', hp', hq⟩)
      · exact Or.inr (mem_prefixes.mpr (Or.inl rfl))
      · rcases List.mem_append.mp hp' with hp' | hp'
        · exact Or.inr (mem_prefixes.mpr (Or.inr ⟨p', hp', hq⟩))
        · rw [List.mem_singleton.mp hp'] at hq
          rcases List.prefix_concat_iff.mp hq with rfl | hq
          · exact Or.inl rfl
          · exact Or.inr (hclosed q hq)
    · rintro (rfl | hq)
      · exact Or.inr ⟨_, List.mem_append_right _ List.mem_cons_self, List.prefix_rfl⟩
      · rcases mem_prefixes.mp hq with rfl | ⟨p', hp', hq⟩
        · exact Or.inl rfl
        · exact Or.inr ⟨p', List.mem_append_left _ hp', hq⟩
  rw [hinsert, Finset.card_insert_of_notMem hnew]

end PacketGuard.Lib.NodeTrie
