import Mathlib

/-! Binary tries stored in an array of nodes: a child is an index into the
array, the root has index 0, and nodes are only ever appended.  `insert` files
an item at the end of a path, `walk` reads the items along a path.  What a trie
means is the list of items at each path (`contents`); the array is tree shaped,
so the path of a node is unique and filing at one path disturbs no other. -/
namespace PacketGuard.Lib

structure TrieNode (σ : Type) where
  child : Bool → Option Nat := fun _ => none
  records : List σ := []

/-- A node without children and items. -/
def TrieNode.empty {σ : Type} : TrieNode σ := {}

abbrev NodeTrie (σ : Type) := List (TrieNode σ)

namespace NodeTrie
variable {σ : Type}

/-- The child of `node` on branch `b`. -/
def childOf (t : NodeTrie σ) (node : Nat) (b : Bool) : Option Nat :=
  t[node]?.bind fun n => n.child b

/-- The items stored in `node`. -/
def recordsAt (t : NodeTrie σ) (node : Nat) : List σ := (t[node]?.map TrieNode.records).getD []

/-- Append a fresh node and make it the child of `node` on branch `b`. -/
def grow (t : NodeTrie σ) (node : Nat) (b : Bool) : NodeTrie σ :=
  t.modify node (fun n => { n with child := Function.update n.child b (some t.length) }) ++ [.empty]

/-- Walk down `path` from `node`, creating the nodes that are missing; the
result is the trie and the node at the end of the path. -/
def descend (t : NodeTrie σ) (node : Nat) : List Bool → NodeTrie σ × Nat
  | [] => (t, node)
  | b :: path =>
    match childOf t node b with
    | some next => descend t next path
    | none => descend (grow t node b) t.length path

/-- Store `item` behind the items of `node`. -/
def store (t : NodeTrie σ) (node : Nat) (item : σ) : NodeTrie σ :=
  t.modify node fun n => { n with records := n.records ++ [item] }

/-- File `item` at the end of `path`. -/
def insert (t : NodeTrie σ) (path : List Bool) (item : σ) : NodeTrie σ :=
  let (t', node) := descend t 0 path
  store t' node item

/-- The items met on the way from `node` along `bits`, until a child is missing. -/
def walk (t : NodeTrie σ) (node : Nat) : List Bool → List σ
  | [] => recordsAt t node
  | b :: bits =>
    recordsAt t node ++
      match childOf t node b with
      | some next => walk t next bits
      | none => []

/-- The node reached from `node` along `path`. -/
def follow (t : NodeTrie σ) (node : Nat) : List Bool → Option Nat
  | [] => some node
  | b :: path => (childOf t node b).bind fun next => follow t next path

/-- What the trie means: the items filed at the end of `path`. -/
def contents (t : NodeTrie σ) (path : List Bool) : List σ :=
  ((follow t 0 path).map (recordsAt t)).getD []

/-- Tree shape: there is a root, edges lead to later nodes of the array, and no
two edges lead to the same node. -/
structure Shaped (t : NodeTrie σ) : Prop where
  root : 0 < t.length
  inRange : ∀ i b n, childOf t i b = some n → i < n ∧ n < t.length
  oneParent : ∀ i b j c n, childOf t i b = some n → childOf t j c = some n → i = j ∧ b = c

/-! ## Paths -/

theorem follow_append (t : NodeTrie σ) (node : Nat) (path path' : List Bool) :
    follow t node (path ++ path') = (follow t node path).bind fun n => follow t n path' := by
  induction path generalizing node with
  | nil => rfl
  | cons b path ih =>
    cases h : childOf t node b with
    | none => simp [follow, h]
    | some n => simp [follow, h, ih]

theorem follow_concat (t : NodeTrie σ) (node : Nat) (path : List Bool) (b : Bool) :
    follow t node (path ++ [b]) = (follow t node path).bind fun n => childOf t n b := by
  rw [follow_append]
  congr 1
  funext n
  cases h : childOf t n b <;> simp [follow, h]

theorem Shaped.follow_lt {t : NodeTrie σ} (h : Shaped t) {path : List Bool} {n : Nat}
    (hf : follow t 0 path = some n) : n < t.length := by
  induction path using List.reverseRecOn with
  | nil => cases hf; exact h.root
  | append_singleton path b _ =>
    rw [follow_concat] at hf
    obtain ⟨m, _, hm⟩ := Option.bind_eq_some_iff.mp hf
    exact (h.inRange m b n hm).2

/-- In a tree-shaped array the path to a node is unique. -/
theorem Shaped.follow_inj {t : NodeTrie σ} (h : Shaped t) {p q : List Bool} {n : Nat}
    (hp : follow t 0 p = some n) (hq : follow t 0 q = some n) : p = q := by
  induction p using List.reverseRecOn generalizing q n with
  | nil =>
    cases hp
    induction q using List.reverseRecOn with
    | nil => rfl
    | append_singleton q c _ =>
      rw [follow_concat] at hq
      obtain ⟨m, _, hm⟩ := Option.bind_eq_some_iff.mp hq
      exact absurd (h.inRange m c 0 hm).1 (Nat.not_lt_zero _)
  | append_singleton p b ih =>
    rw [follow_concat] at hp
    obtain ⟨m, hm, hmn⟩ := Option.bind_eq_some_iff.mp hp
    induction q using List.reverseRecOn with
    | nil =>
      cases hq
      exact absurd (h.inRange m b 0 hmn).1 (Nat.not_lt_zero _)
    | append_singleton q c _ =>
      rw [follow_concat] at hq
      obtain ⟨k, hk, hkn⟩ := Option.bind_eq_some_iff.mp hq
      obtain ⟨rfl, rfl⟩ := h.oneParent m b k c n hmn hkn
      rw [ih hm hk]

/-! ## Growing by one node -/

section Grow
variable {t : NodeTrie σ} {node : Nat} {b : Bool}

@[simp] theorem length_grow : (grow t node b).length = t.length + 1 := by
  simp [grow]

theorem childOf_grow (hn : node < t.length) (i : Nat) (c : Bool) :
    childOf (grow t node b) i c =
      if i = node ∧ c = b then some t.length else childOf t i c := by
  unfold childOf grow
  -- an old node, the new one, or neither
  rcases Nat.lt_trichotomy i t.length with hi | rfl | hi
  · rw [List.getElem?_append_left (by simpa using hi), List.getElem?_modify]
    by_cases hin : node = i
    · subst hin
      by_cases hcb : c = b
      · subst hcb; simp [List.getElem?_eq_getElem hn]
      · simp [List.getElem?_eq_getElem hn, hcb]
    · simp [hin, Ne.symm hin]
  · rw [List.getElem?_append_right (by simp)]
    simp [Nat.ne_of_gt hn, TrieNode.empty]
  · rw [List.getElem?_append_right (by simp; omega),
      List.getElem?_eq_none (l := [_]) (by simp; omega)]
    have : i ≠ node := by omega
    simp [this, List.getElem?_eq_none (Nat.le_of_lt hi)]

theorem recordsAt_grow (i : Nat) : recordsAt (grow t node b) i = recordsAt t i := by
  unfold recordsAt grow
  rcases Nat.lt_trichotomy i t.length with hi | rfl | hi
  · rw [List.getElem?_append_left (by simpa using hi), List.getElem?_modify]
    by_cases hin : node = i <;> simp [hin, List.getElem?_eq_getElem hi]
  · rw [List.getElem?_append_right (by simp)]
    simp [TrieNode.empty]
  · rw [List.getElem?_append_right (by simp; omega),
      List.getElem?_eq_none (l := [_]) (by simp; omega), List.getElem?_eq_none (Nat.le_of_lt hi)]

theorem Shaped.grow (h : Shaped t) (hn : node < t.length) :
    Shaped (grow t node b) where
  root := by simp
  inRange := by
    intro i c n hc
    rw [childOf_grow hn] at hc
    split at hc
    · cases hc
      rename_i hi
      rw [length_grow, hi.1]
      omega
    · have := h.inRange i c n hc
      rw [length_grow]
      omega
  oneParent := by
    intro i c j d n hi hj
    rw [childOf_grow hn] at hi hj
    -- the new node has one parent, and an old node is not the new one
    split at hi <;> split at hj
    · rename_i h1 h2
      exact ⟨h1.1.trans h2.1.symm, h1.2.trans h2.2.symm⟩
    · cases hi
      exact absurd (h.inRange j d _ hj).2 (Nat.lt_irrefl _)
    · cases hj
      exact absurd (h.inRange i c _ hi).2 (Nat.lt_irrefl _)
    · exact h.oneParent i c j d n hi hj

/-- Growing keeps every path that was there. -/
theorem follow_grow_of_some (hn : node < t.length) (hb : childOf t node b = none)
    {path : List Bool} {i n : Nat} (hf : follow t i path = some n) :
    follow (NodeTrie.grow t node b) i path = some n := by
  induction path generalizing i with
  | nil => exact hf
  | cons c path ih =>
    obtain ⟨m, hm, hmn⟩ := Option.bind_eq_some_iff.mp hf
    have hc : childOf (NodeTrie.grow t node b) i c = some m := by
      rw [childOf_grow hn, if_neg, hm]
      rintro ⟨rfl, rfl⟩
      rw [hb] at hm
      cases hm
    simp only [follow, hc, Option.bind_some]
    exact ih hmn

/-- A path that growing adds ends in the new node. -/
theorem follow_grow_of_none (hn : node < t.length) (hb : childOf t node b = none)
    {path : List Bool} (hf : follow t 0 path = none) {n : Nat}
    (hg : follow (NodeTrie.grow t node b) 0 path = some n) : n = t.length := by
  induction path using List.reverseRecOn generalizing n with
  | nil => cases hf
  | append_singleton path c ih =>
    rw [follow_concat] at hf hg
    obtain ⟨m, hm, hmn⟩ := Option.bind_eq_some_iff.mp hg
    rw [childOf_grow hn] at hmn
    split at hmn
    · exact (Option.some.inj hmn).symm
    · -- an old edge: its path was there before, or starts at the new node, which has no child
      exfalso
      cases hp : follow t 0 path with
      | none =>
        have hc : childOf t m c = none := by
          rw [ih hp hm]
          simp [childOf]
        rw [hc] at hmn
        cases hmn
      | some k =>
        have hk := (follow_grow_of_some hn hb hp).symm.trans hm
        cases hk
        rw [hp, Option.bind_some, hmn] at hf
        cases hf

theorem contents_grow (hn : node < t.length) (hb : childOf t node b = none) (path : List Bool) :
    contents (NodeTrie.grow t node b) path = contents t path := by
  unfold contents
  cases hp : follow t 0 path with
  | some k => simp [follow_grow_of_some hn hb hp, recordsAt_grow]
  | none =>
    cases hg : follow (NodeTrie.grow t node b) 0 path with
    | none => rfl
    | some n =>
      rw [follow_grow_of_none hn hb hp hg, Option.map_some, recordsAt_grow]
      simp [recordsAt]

end Grow

/-! ## Descending -/

/-- Descending keeps the shape and the meaning, and ends at the path's node. -/
theorem descend_spec {t : NodeTrie σ} (h : Shaped t) (path : List Bool) :
    ∀ {node : Nat} {pre : List Bool}, follow t 0 pre = some node →
      Shaped (descend t node path).1 ∧
      follow (descend t node path).1 0 (pre ++ path) = some (descend t node path).2 ∧
      ∀ q, contents (descend t node path).1 q = contents t q := by
  induction path generalizing t with
  | nil =>
    intro node pre hpre
    exact ⟨h, by simpa [descend] using hpre, fun _ => rfl⟩
  | cons b path ih =>
    intro node pre hpre
    have hn := h.follow_lt hpre
    cases hb : childOf t node b with
    | some next =>
      have hnext : follow t 0 (pre ++ [b]) = some next := by rw [follow_concat, hpre]; exact hb
      have hd := ih h hnext
      simp only [descend, hb]
      simpa using hd
    | none =>
      -- the new child stands at the old end of the array
      have hnext : follow (grow t node b) 0 (pre ++ [b]) = some t.length := by
        rw [follow_concat, follow_grow_of_some hn hb hpre]
        simp [childOf_grow hn]
      obtain ⟨hs, hf, hc⟩ := ih (h.grow hn) hnext
      simp only [descend, hb]
      exact ⟨hs, by simpa using hf, fun q => (hc q).trans (contents_grow hn hb q)⟩

/-! ## Storing and filing -/

theorem childOf_store (t : NodeTrie σ) (node : Nat) (item : σ) (i : Nat) (b : Bool) :
    childOf (store t node item) i b = childOf t i b := by
  unfold childOf store
  rw [List.getElem?_modify]
  by_cases h : node = i
  · subst h
    cases ht : t[node]? <;> simp
  · simp [h]

theorem recordsAt_store {t : NodeTrie σ} {node : Nat} (hn : node < t.length) (item : σ) (i : Nat) :
    recordsAt (store t node item) i =
      if i = node then recordsAt t i ++ [item] else recordsAt t i := by
  unfold recordsAt store
  rw [List.getElem?_modify]
  by_cases h : node = i
  · subst h
    simp [List.getElem?_eq_getElem hn]
  · simp [h, Ne.symm h]

theorem follow_store (t : NodeTrie σ) (node : Nat) (item : σ) (i : Nat) (path : List Bool) :
    follow (store t node item) i path = follow t i path := by
  induction path generalizing i with
  | nil => rfl
  | cons b path ih =>
    simp only [follow, childOf_store]
    congr 1
    funext n
    exact ih n

theorem Shaped.store {t : NodeTrie σ} (h : Shaped t) (node : Nat) (item : σ) :
    Shaped (store t node item) where
  root := by simpa [NodeTrie.store] using h.root
  inRange := by
    intro i b n hb
    rw [childOf_store] at hb
    simpa [NodeTrie.store] using h.inRange i b n hb
  oneParent := by
    intro i b j c n hb hc
    rw [childOf_store] at hb hc
    exact h.oneParent i b j c n hb hc

theorem Shaped.insert {t : NodeTrie σ} (h : Shaped t) (path : List Bool) (item : σ) :
    Shaped (insert t path item) :=
  (descend_spec h path (rfl : follow t 0 [] = some 0)).1.store _ item

/-- **Filing at a path changes what is stored there and nowhere else.** -/
theorem contents_insert {t : NodeTrie σ} (h : Shaped t) (path : List Bool) (item : σ)
    (q : List Bool) :
    contents (insert t path item) q =
      if q = path then contents t q ++ [item] else contents t q := by
  obtain ⟨hs, hf, hc⟩ := descend_spec h path (rfl : follow t 0 [] = some 0)
  rw [List.nil_append] at hf
  rw [← hc q]
  simp only [contents, insert, follow_store]
  cases hq : follow (descend t 0 path).1 0 q with
  | none =>
    have hne : q ≠ path := fun he => by rw [he, hf] at hq; cases hq
    simp [hne]
  | some n =>
    simp only [Option.map_some, Option.getD_some, recordsAt_store (hs.follow_lt hf)]
    by_cases he : q = path
    · subst he
      rw [hf] at hq
      simp [Option.some.inj hq]
    · have hne : n ≠ (descend t 0 path).2 := fun hx => he (hs.follow_inj hq (hx ▸ hf))
      simp [he, hne]

/-! ## Walking -/

theorem walk_eq_flatMap (t : NodeTrie σ) (node : Nat) (bits : List Bool) :
    walk t node bits = (List.range (bits.length + 1)).flatMap fun k =>
      ((follow t node (bits.take k)).map (recordsAt t)).getD [] := by
  induction bits generalizing node with
  | nil => simp [walk, follow]
  | cons b bits ih =>
    rw [walk, List.length_cons, List.range_succ_eq_map, List.flatMap_cons]
    congr 1
    rw [List.flatMap_map]
    cases h : childOf t node b with
    | none => simp [follow, h]
    | some next => simp [follow, h, ih]

/-- The nodes that a walk reads. -/
def nodesOn (t : NodeTrie σ) (node : Nat) : List Bool → List Nat
  | [] => [node]
  | b :: bits =>
    node ::
      match childOf t node b with
      | some next => nodesOn t next bits
      | none => []

/-- Where children lie in the array, a walk from a node of the array stays in it. -/
theorem nodesOn_lt {t : NodeTrie σ} (hchild : ∀ i b n, childOf t i b = some n → n < t.length)
    {node : Nat} (hnode : node < t.length) (bits : List Bool) :
    ∀ n ∈ nodesOn t node bits, n < t.length := by
  induction bits generalizing node with
  | nil => simpa [nodesOn] using hnode
  | cons b bits ih =>
    intro n hn
    rw [nodesOn, List.mem_cons] at hn
    obtain rfl | hn := hn
    · exact hnode
    · cases hb : childOf t node b with
      | none => simp [hb] at hn
      | some next =>
        rw [hb] at hn
        exact ih (hchild node b next hb) n hn

/-- **A walk reads the contents of every initial segment of `bits`, shortest first.** -/
theorem walk_eq_contents (t : NodeTrie σ) (bits : List Bool) :
    walk t 0 bits =
      (List.range (bits.length + 1)).flatMap fun k => contents t (bits.take k) :=
  walk_eq_flatMap t 0 bits

/-! ## Tries filed from a list of entries -/

/-- File all entries, from left to right, into a lone empty root. -/
def ofEntries (entries : List (List Bool × σ)) : NodeTrie σ :=
  entries.foldl (fun t e => insert t e.1 e.2) [.empty]

theorem ofEntries_concat (entries : List (List Bool × σ)) (e : List Bool × σ) :
    ofEntries (entries ++ [e]) = insert (ofEntries entries) e.1 e.2 := by
  simp [ofEntries]

theorem shaped_ofEntries (entries : List (List Bool × σ)) : Shaped (ofEntries entries) := by
  induction entries using List.reverseRecOn with
  | nil =>
    have hnone : ∀ i b, childOf ([.empty] : NodeTrie σ) i b = none := by
      intro i b
      cases i <;> rfl
    refine ⟨Nat.one_pos, fun i b n h => ?_, fun i b j c n h _ => ?_⟩ <;>
      · rw [ofEntries, List.foldl_nil, hnone] at h
        cases h
  | append_singleton entries e ih =>
    rw [ofEntries_concat]
    exact ih.insert e.1 e.2

/-- The contents of a path are the items of the entries with that path, in order. -/
theorem contents_ofEntries (entries : List (List Bool × σ)) (q : List Bool) :
    contents (ofEntries entries) q = (entries.filter fun e => e.1 = q).map Prod.snd := by
  induction entries using List.reverseRecOn with
  | nil =>
    rw [ofEntries, List.foldl_nil]
    cases q <;> rfl
  | append_singleton entries e ih =>
    rw [ofEntries_concat, contents_insert (shaped_ofEntries entries), ih]
    by_cases h : q = e.1
    · simp [h]
    · simp [h, Ne.symm h]

/-- **What a walk through filed entries reads**: the items whose path is an
initial segment of `bits`, by increasing length and, at one length, in order of
filing. -/
theorem walk_ofEntries (entries : List (List Bool × σ)) (bits : List Bool) :
    walk (ofEntries entries) 0 bits =
      (List.range (bits.length + 1)).flatMap fun k =>
        (entries.filter fun e => e.1 = bits.take k).map Prod.snd := by
  rw [walk_eq_contents]
  simp only [contents_ofEntries]

end NodeTrie
end PacketGuard.Lib
