import PacketGuard.Lib.NodeCount

/-! # Tries whose children are 32-bit numbers

A program that keeps the child of a node as an `int`, with `-1` for no child, has
the trie of natural indexes (`NodeTrie`) only as long as an `int` can name its
nodes.  `IntTrie` is the trie as such a program has it: a new node's index is
the size of the array, cut to 32 bits, and the walks read back what was stored.
An index outside of the array names no node; filing there is lost.

The two tries are the same array (`ofNat`) until a node is needed behind the
first `2 ^ 31`: its index comes out negative, and the filing that needs it leaves
the array at once.  So a list of entries is filed without leaving the array
exactly if the trie of natural indexes has at most `2 ^ 31` nodes
(`faults_ofEntries`), and then both tries agree.
-/
namespace PacketGuard.Lib

/-- A node with signed children; a negative one is no child. -/
structure IntNode (σ : Type) where
  child : Bool → Int := fun _ => -1
  records : List σ := []

/-- A node without children and items. -/
def IntNode.empty {σ : Type} : IntNode σ := {}

abbrev IntTrie (σ : Type) := List (IntNode σ)

/-- A size, cut to a signed number of 32 bits. -/
def intOf (n : Nat) : Int := (n : Int).bmod (2 ^ 32)

namespace IntTrie
variable {σ : Type}

/-- The node at an index. -/
def nodeAt (t : IntTrie σ) (i : Int) : Option (IntNode σ) := if 0 ≤ i then t[i.toNat]? else none

/-- The child of `node` on branch `b`. -/
def childOf (t : IntTrie σ) (node : Int) (b : Bool) : Int :=
  ((nodeAt t node).map fun n => n.child b).getD (-1)

/-- The items stored in `node`. -/
def recordsAt (t : IntTrie σ) (node : Int) : List σ := ((nodeAt t node).map IntNode.records).getD []

/-- Change the node at an index. -/
def modifyAt (t : IntTrie σ) (node : Int) (f : IntNode σ → IntNode σ) : IntTrie σ :=
  if 0 ≤ node then t.modify node.toNat f else t

/-- Append a fresh node and make it the child of `node` on branch `b`. -/
def grow (t : IntTrie σ) (node : Int) (b : Bool) : IntTrie σ :=
  modifyAt t node (fun n => { n with child := Function.update n.child b (intOf t.length) }) ++
    [.empty]

/-- Make sure that `node` has a child on branch `b`. -/
def extend (t : IntTrie σ) (node : Int) (b : Bool) : IntTrie σ :=
  if childOf t node b < 0 then grow t node b else t

/-- Walk down `path` from `node`, creating the nodes that are missing; the
result is the trie and the node at the end of the path. -/
def descend (t : IntTrie σ) (node : Int) : List Bool → IntTrie σ × Int
  | [] => (t, node)
  | b :: path => descend (extend t node b) (childOf (extend t node b) node b) path

/-- Store `item` behind the items of `node`. -/
def store (t : IntTrie σ) (node : Int) (item : σ) : IntTrie σ :=
  modifyAt t node fun n => { n with records := n.records ++ [item] }

/-- File `item` at the end of `path`. -/
def insert (t : IntTrie σ) (path : List Bool) (item : σ) : IntTrie σ :=
  store (descend t 0 path).1 (descend t 0 path).2 item

/-- Walking down `path`, every node on the way and the one at the end exist. -/
def staysInRange (t : IntTrie σ) (node : Int) : List Bool → Bool
  | [] => (nodeAt t node).isSome
  | b :: path =>
    (nodeAt t node).isSome &&
      staysInRange (extend t node b) (childOf (extend t node b) node b) path

/-- The items met on the way from `node` along `bits`, until an index is
negative. -/
def walk (t : IntTrie σ) (node : Int) : List Bool → List σ
  | [] => recordsAt t node
  | b :: bits => recordsAt t node ++ if 0 ≤ node then walk t (childOf t node b) bits else []

/-- The nodes that a walk reads. -/
def nodesOn (t : IntTrie σ) (node : Int) : List Bool → List Int
  | [] => if 0 ≤ node then [node] else []
  | b :: bits => if 0 ≤ node then node :: nodesOn t (childOf t node b) bits else []

/-- A walk reads its nodes one after the other. -/
theorem walk_eq_nodesOn (t : IntTrie σ) (node : Int) (bits : List Bool) :
    walk t node bits = (nodesOn t node bits).flatMap (recordsAt t) := by
  have houtside : ∀ node : Int, ¬ 0 ≤ node → recordsAt t node = [] := by
    intro node hnode
    rw [recordsAt, nodeAt, if_neg hnode]
    rfl
  induction bits generalizing node with
  | nil =>
    by_cases hnode : 0 ≤ node
    · simp [walk, nodesOn, hnode]
    · simp [walk, nodesOn, hnode, houtside node hnode]
  | cons b bits ih =>
    by_cases hnode : 0 ≤ node
    · rw [walk, nodesOn, if_pos hnode, if_pos hnode, List.flatMap_cons, ih]
    · simp [walk, nodesOn, hnode, houtside node hnode]

theorem walk_nil (node : Int) (bits : List Bool) : walk ([] : IntTrie σ) node bits = [] := by
  have hnone : ∀ node : Int, nodeAt ([] : IntTrie σ) node = none := by
    intro node
    unfold nodeAt
    split <;> simp
  induction bits generalizing node with
  | nil => simp [walk, recordsAt, hnone]
  | cons b bits ih => simp [walk, recordsAt, hnone, ih]

@[simp] theorem length_modifyAt (t : IntTrie σ) (node : Int) (f : IntNode σ → IntNode σ) :
    (modifyAt t node f).length = t.length := by
  unfold modifyAt
  split <;> simp

/-- Filing only adds nodes. -/
theorem length_le_length_insert (t : IntTrie σ) (path : List Bool) (item : σ) :
    t.length ≤ (insert t path item).length := by
  have hextend : ∀ (t : IntTrie σ) (node : Int) (b : Bool),
      t.length ≤ (extend t node b).length := by
    intro t node b
    unfold extend
    split
    · simp [grow]
    · exact Nat.le_refl _
  have hdescend : ∀ (path : List Bool) (t : IntTrie σ) (node : Int),
      t.length ≤ (descend t node path).1.length := by
    intro path
    induction path with
    | nil => exact fun _ _ => Nat.le_refl _
    | cons b path ih => exact fun t node => (hextend t node b).trans (ih _ _)
  rw [insert, store, length_modifyAt]
  exact hdescend path t 0

/-! ## A filing that leaves the array is lost -/

theorem nodeAt_modifyAt (t : IntTrie σ) (node i : Int) (f : IntNode σ → IntNode σ) :
    nodeAt (modifyAt t node f) i = if i = node then (nodeAt t i).map f else nodeAt t i := by
  unfold nodeAt modifyAt
  by_cases hi : 0 ≤ i
  · by_cases hnode : 0 ≤ node
    · have hsame : node.toNat = i.toNat ↔ i = node := by omega
      simp only [hi, hnode, if_true, List.getElem?_modify, hsame]
      by_cases heq : i = node <;> simp [heq]
    · have hne : i ≠ node := by omega
      simp [hi, hnode, hne]
  · simp [hi]

theorem recordsAt_grow (t : IntTrie σ) (node : Int) (b : Bool) (i : Int) :
    recordsAt (grow t node b) i = recordsAt t i := by
  have hmodify : recordsAt (modifyAt t node fun n =>
      { n with child := Function.update n.child b (intOf t.length) }) i = recordsAt t i := by
    unfold recordsAt
    rw [nodeAt_modifyAt]
    split
    · cases nodeAt t i <;> rfl
    · rfl
  rw [← hmodify]
  unfold grow recordsAt nodeAt
  split
  · -- the fresh node holds nothing
    rcases Nat.lt_trichotomy i.toNat t.length with hlt | heq | hgt
    · rw [List.getElem?_append_left (by simpa using hlt)]
    · rw [List.getElem?_append_right (by simp [heq]), List.getElem?_eq_none (l := modifyAt _ _ _)
        (by simp [heq])]
      simp [heq, IntNode.empty]
    · rw [List.getElem?_append_right (by simp; omega),
        List.getElem?_eq_none (l := [_]) (by simp; omega),
        List.getElem?_eq_none (l := modifyAt _ _ _) (by simp; omega)]
  · rfl

/-- A node of the array gets its new child. -/
theorem childOf_grow {t : IntTrie σ} {node : Int} {b : Bool} (h : (nodeAt t node).isSome = true) :
    childOf (grow t node b) node b = intOf t.length := by
  obtain ⟨n, hn⟩ := Option.isSome_iff_exists.mp h
  have hnode : 0 ≤ node := by
    by_contra hneg
    rw [nodeAt, if_neg hneg] at hn
    cases hn
  have hlt : node.toNat < t.length := by
    rw [nodeAt, if_pos hnode] at hn
    exact (List.getElem?_eq_some_iff.mp hn).1
  have hgrow : nodeAt (grow t node b) node =
      nodeAt (modifyAt t node fun n =>
        { n with child := Function.update n.child b (intOf t.length) }) node := by
    rw [grow, nodeAt, nodeAt, if_pos hnode, if_pos hnode,
      List.getElem?_append_left (by simpa using hlt)]
  rw [childOf, hgrow, nodeAt_modifyAt, if_pos rfl, hn, Option.map_some, Option.map_some,
    Option.getD_some]
  exact Function.update_self b _ _

theorem recordsAt_extend (t : IntTrie σ) (node : Int) (b : Bool) (i : Int) :
    recordsAt (extend t node b) i = recordsAt t i := by
  unfold extend
  split
  · exact recordsAt_grow t node b i
  · rfl

theorem recordsAt_descend (t : IntTrie σ) (node : Int) (path : List Bool) (i : Int) :
    recordsAt (descend t node path).1 i = recordsAt t i := by
  induction path generalizing t node with
  | nil => rfl
  | cons b path ih => rw [descend, ih, recordsAt_extend]

theorem nodeAt_of_neg {t : IntTrie σ} {node : Int} (h : node < 0) : nodeAt t node = none :=
  if_neg (by omega)

theorem childOf_of_neg {t : IntTrie σ} {node : Int} (h : node < 0) (b : Bool) :
    childOf t node b = -1 := by
  rw [childOf, nodeAt_of_neg h]
  rfl

theorem descend_of_neg {node : Int} (h : node < 0) (t : IntTrie σ) (path : List Bool) :
    (descend t node path).2 < 0 := by
  induction path generalizing t node with
  | nil => exact h
  | cons b path ih =>
    refine ih ?_ _
    rw [childOf_of_neg h]
    decide

/-- From an index behind the array no child is reached: a fresh node has none. -/
theorem childOf_extend_of_none {t : IntTrie σ} {node : Int} (h : nodeAt t node = none) (b : Bool) :
    childOf (extend t node b) node b = -1 := by
  have hchild : childOf t node b = -1 := by
    rw [childOf, h]
    rfl
  rw [extend, if_pos (by rw [hchild]; decide)]
  by_cases hnode : 0 ≤ node
  · have hbehind : t.length ≤ node.toNat := by
      simpa [nodeAt, hnode] using h
    rw [childOf, grow, nodeAt, if_pos hnode, List.getElem?_append_right (by simpa using hbehind)]
    rcases Nat.eq_zero_or_pos (node.toNat - t.length) with hzero | hpos
    · simp [hzero, IntNode.empty]
    · rw [List.getElem?_eq_none (by simp; omega)]
      rfl
  · exact childOf_of_neg (by omega) b

theorem nodeAt_descend_of_leaves {t : IntTrie σ} {node : Int} {path : List Bool}
    (h : staysInRange t node path = false) :
    nodeAt (descend t node path).1 (descend t node path).2 = none := by
  induction path generalizing t node with
  | nil => simpa [staysInRange, descend] using h
  | cons b path ih =>
    rw [staysInRange, Bool.and_eq_false_iff] at h
    rcases h with h | h
    · have hnone : nodeAt t node = none := by simpa using h
      refine nodeAt_of_neg (descend_of_neg ?_ _ path)
      rw [childOf_extend_of_none hnone]
      decide
    · exact ih h

/-- **A filing that leaves the array files nothing.** -/
theorem recordsAt_insert_of_leaves {t : IntTrie σ} {path : List Bool}
    (h : staysInRange t 0 path = false) (item : σ) (i : Int) :
    recordsAt (insert t path item) i = recordsAt t i := by
  rw [← recordsAt_descend t 0 path i, insert, store, recordsAt, nodeAt_modifyAt]
  split
  · rename_i heq
    rw [heq, nodeAt_descend_of_leaves h, recordsAt, nodeAt_descend_of_leaves h]
    rfl
  · rfl

/-- Filing an item adds nothing else to any node. -/
theorem mem_recordsAt_insert {t : IntTrie σ} {path : List Bool} {item x : σ} {i : Int}
    (h : x ∈ recordsAt (insert t path item) i) : x ∈ recordsAt t i ∨ x = item := by
  rw [← recordsAt_descend t 0 path i]
  rw [insert, store, recordsAt, nodeAt_modifyAt] at h
  unfold recordsAt
  split at h
  · cases hnode : nodeAt (descend t 0 path).1 i with
    | none => simp [hnode] at h
    | some n => simpa [hnode] using h
  · exact Or.inl h

/-! ## The same array with natural indexes -/

/-- The node with its children as signed numbers. -/
def ofNode (n : TrieNode σ) : IntNode σ where
  child b := (n.child b).elim (-1) Int.ofNat
  records := n.records

/-- The trie with its children as signed numbers. -/
def ofNat (t : NodeTrie σ) : IntTrie σ := t.map ofNode

theorem intOf_of_lt {n : Nat} (h : n < 2 ^ 31) : intOf n = n := by
  refine Int.bmod_eq_of_le ?_ ?_
  · norm_num
  · norm_num
    omega

/-- The size that does not fit comes out negative. -/
theorem intOf_two_pow : intOf (2 ^ 31) = -2 ^ 31 := by
  unfold intOf
  norm_num [Int.bmod_def]

section OfNat
variable (t : NodeTrie σ)

@[simp] theorem length_ofNat : (ofNat t).length = t.length := by
  simp [ofNat]

theorem nodeAt_ofNat (i : Nat) : nodeAt (ofNat t) i = t[i]?.map ofNode := by
  rw [nodeAt, if_pos (Int.natCast_nonneg i), Int.toNat_natCast, ofNat, List.getElem?_map]

theorem isSome_nodeAt_ofNat {i : Nat} : (nodeAt (ofNat t) i).isSome = true ↔ i < t.length := by
  rw [nodeAt_ofNat, Option.isSome_map]
  simp

theorem childOf_ofNat (i : Nat) (b : Bool) :
    childOf (ofNat t) i b = (NodeTrie.childOf t i b).elim (-1) Int.ofNat := by
  rw [childOf, nodeAt_ofNat, NodeTrie.childOf]
  cases t[i]? <;> rfl

theorem recordsAt_ofNat (i : Nat) : recordsAt (ofNat t) i = NodeTrie.recordsAt t i := by
  rw [recordsAt, nodeAt_ofNat, NodeTrie.recordsAt]
  cases t[i]? <;> rfl

theorem modifyAt_ofNat (i : Nat) {f : IntNode σ → IntNode σ} {g : TrieNode σ → TrieNode σ}
    (hfg : ∀ n, f (ofNode n) = ofNode (g n)) : modifyAt (ofNat t) i f = ofNat (t.modify i g) := by
  rw [modifyAt, if_pos (Int.natCast_nonneg i), Int.toNat_natCast]
  apply List.ext_getElem?
  intro j
  rw [List.getElem?_modify, ofNat, ofNat, List.getElem?_map, List.getElem?_map,
    List.getElem?_modify]
  by_cases hij : i = j
  · cases t[j]? <;> simp [hij, hfg]
  · cases t[j]? <;> simp [hij]

/-- A node that can be named is added to both tries alike. -/
theorem grow_ofNat {t : NodeTrie σ} (h : t.length < 2 ^ 31) (node : Nat) (b : Bool) :
    grow (ofNat t) node b = ofNat (NodeTrie.grow t node b) := by
  have hnode : ∀ n : TrieNode σ,
      { ofNode n with child := Function.update (ofNode n).child b (intOf (ofNat t).length) } =
        ofNode { n with child := Function.update n.child b (some t.length) } := by
    intro n
    have hchild : Function.update (ofNode n).child b (t.length : Int) =
        fun c => (Function.update n.child b (some t.length) c).elim (-1) Int.ofNat := by
      funext c
      by_cases hc : c = b
      · subst hc
        simp
      · simp [Function.update_of_ne hc, ofNode]
    rw [length_ofNat, intOf_of_lt h, hchild]
    rfl
  have happend : ∀ t' : NodeTrie σ, ofNat (t' ++ [.empty]) = ofNat t' ++ [.empty] := fun t' =>
    List.map_append
  rw [grow, NodeTrie.grow, happend, modifyAt_ofNat t node hnode]

theorem store_ofNat (node : Nat) (item : σ) :
    store (ofNat t) node item = ofNat (NodeTrie.store t node item) :=
  modifyAt_ofNat t node fun _ => rfl

theorem walk_ofNat (node : Nat) (bits : List Bool) :
    walk (ofNat t) node bits = NodeTrie.walk t node bits := by
  induction bits generalizing node with
  | nil => exact recordsAt_ofNat t node
  | cons b bits ih =>
    rw [walk, NodeTrie.walk, recordsAt_ofNat, if_pos (Int.natCast_nonneg node), childOf_ofNat]
    cases NodeTrie.childOf t node b with
    | some next => exact congrArg _ (ih next)
    | none =>
      refine congrArg _ ?_
      cases bits <;> rfl

theorem nodesOn_ofNat (node : Nat) (bits : List Bool) :
    nodesOn (ofNat t) node bits = (NodeTrie.nodesOn t node bits).map Int.ofNat := by
  induction bits generalizing node with
  | nil => simp [nodesOn, NodeTrie.nodesOn]
  | cons b bits ih =>
    rw [nodesOn, NodeTrie.nodesOn, if_pos (Int.natCast_nonneg node), List.map_cons, childOf_ofNat]
    refine congrArg _ ?_
    cases NodeTrie.childOf t node b with
    | some next => exact ih next
    | none => cases bits <;> rfl

end OfNat

/-! ## Filing in both tries -/

/-- Where there is a child, both tries go on to it. -/
theorem extend_ofNat_of_some {t : NodeTrie σ} {node next : Nat} {b : Bool}
    (hb : NodeTrie.childOf t node b = some next) :
    extend (ofNat t) node b = ofNat t ∧ childOf (ofNat t) node b = next := by
  have hchild : childOf (ofNat t) node b = next := by
    rw [childOf_ofNat, hb]
    rfl
  refine ⟨?_, hchild⟩
  rw [extend, hchild, if_neg (by omega)]

/-- Where there is none, both tries grow. -/
theorem extend_ofNat_of_none {t : NodeTrie σ} {node : Nat} {b : Bool}
    (hb : NodeTrie.childOf t node b = none) :
    extend (ofNat t) node b = grow (ofNat t) node b := by
  rw [extend, childOf_ofNat, hb]
  exact if_pos (by decide)

/-- The first node that cannot be named is left at once. -/
theorem staysInRange_grow_full {t : NodeTrie σ} (hfull : t.length = 2 ^ 31) {node : Nat}
    (hnode : node < t.length) (b : Bool) (path : List Bool) :
    staysInRange (grow (ofNat t) node b) (childOf (grow (ofNat t) node b) node b) path = false := by
  have hchild : childOf (grow (ofNat t) node b) node b < 0 := by
    rw [childOf_grow ((isSome_nodeAt_ofNat t).mpr hnode), length_ofNat, hfull, intOf_two_pow]
    norm_num
  cases path <;> simp [staysInRange, nodeAt_of_neg hchild]

/-- **Both tries descend alike** as long as the nodes can be named, and a descent
that needs one more node leaves the array. -/
theorem descend_ofNat {t : NodeTrie σ} (h : NodeTrie.Shaped t) (hlength : t.length ≤ 2 ^ 31)
    {node : Nat} (hnode : node < t.length) (path : List Bool) :
    (staysInRange (ofNat t) node path = true ↔ (NodeTrie.descend t node path).1.length ≤ 2 ^ 31) ∧
      ((NodeTrie.descend t node path).1.length ≤ 2 ^ 31 →
        descend (ofNat t) node path =
          (ofNat (NodeTrie.descend t node path).1, ((NodeTrie.descend t node path).2 : Int))) := by
  induction path generalizing t node with
  | nil =>
    have hin := (isSome_nodeAt_ofNat t).mpr hnode
    exact ⟨⟨fun _ => hlength, fun _ => hin⟩, fun _ => rfl⟩
  | cons b path ih =>
    have hin := (isSome_nodeAt_ofNat t).mpr hnode
    rw [staysInRange, descend, hin, Bool.true_and]
    cases hb : NodeTrie.childOf t node b with
    | some next =>
      obtain ⟨hextend, hchild⟩ := extend_ofNat_of_some hb
      have hdescend : NodeTrie.descend t node (b :: path) = NodeTrie.descend t next path := by
        rw [NodeTrie.descend, hb]
      rw [hextend, hchild, hdescend]
      exact ih h hlength (h.inRange node b next hb).2
    | none =>
      have hdescend : NodeTrie.descend t node (b :: path) =
          NodeTrie.descend (NodeTrie.grow t node b) t.length path := by
        rw [NodeTrie.descend, hb]
      rw [extend_ofNat_of_none hb, hdescend]
      by_cases hroom : t.length < 2 ^ 31
      · have hchild : childOf (ofNat (NodeTrie.grow t node b)) node b = t.length := by
          rw [childOf_ofNat, NodeTrie.childOf_grow hnode, if_pos ⟨rfl, rfl⟩]
          rfl
        rw [grow_ofNat hroom, hchild]
        refine ih (h.grow hnode) ?_ ?_
        · rw [NodeTrie.length_grow]
          omega
        · rw [NodeTrie.length_grow]
          omega
      · -- the new node is the first one that cannot be named
        have hfull : t.length = 2 ^ 31 := by omega
        have hmore := NodeTrie.length_le_length_descend (NodeTrie.grow t node b) t.length path
        rw [NodeTrie.length_grow] at hmore
        refine ⟨?_, fun hle => by omega⟩
        rw [staysInRange_grow_full hfull hnode]
        exact ⟨fun hfalse => absurd hfalse Bool.false_ne_true, fun hle => by omega⟩

theorem insert_ofNat {t : NodeTrie σ} (h : NodeTrie.Shaped t) (hlength : t.length ≤ 2 ^ 31)
    (path : List Bool) (item : σ) (hfits : (NodeTrie.insert t path item).length ≤ 2 ^ 31) :
    insert (ofNat t) path item = ofNat (NodeTrie.insert t path item) := by
  rw [NodeTrie.insert, NodeTrie.length_store] at hfits
  have hdescend : descend (ofNat t) 0 path = _ := (descend_ofNat h hlength h.root path).2 hfits
  rw [insert, hdescend, store_ofNat]
  rfl

/-! ## Tries filed from a list of entries -/

/-- File the entries, from left to right, into a lone empty root; the flag says
whether some filing left the array. -/
def filing (entries : List (List Bool × σ)) : IntTrie σ × Bool :=
  entries.foldl (fun acc e => (insert acc.1 e.1 e.2, acc.2 || !staysInRange acc.1 0 e.1))
    ([.empty], false)

def ofEntries (entries : List (List Bool × σ)) : IntTrie σ := (filing entries).1

def faults (entries : List (List Bool × σ)) : Bool := (filing entries).2

theorem ofEntries_concat (entries : List (List Bool × σ)) (e : List Bool × σ) :
    ofEntries (entries ++ [e]) = insert (ofEntries entries) e.1 e.2 := by
  simp [ofEntries, filing]

theorem faults_concat (entries : List (List Bool × σ)) (e : List Bool × σ) :
    faults (entries ++ [e]) = (faults entries || !staysInRange (ofEntries entries) 0 e.1) := by
  simp [faults, ofEntries, filing]

theorem ofEntries_ne_nil (entries : List (List Bool × σ)) : ofEntries entries ≠ [] := by
  induction entries using List.reverseRecOn with
  | nil => exact List.cons_ne_nil _ _
  | append_singleton entries e ih =>
    rw [ofEntries_concat]
    have hmore := length_le_length_insert (ofEntries entries) e.1 e.2
    exact List.length_pos_iff.mp (Nat.lt_of_lt_of_le (List.length_pos_iff.mpr ih) hmore)

/-- Every item in the array was filed. -/
theorem mem_recordsAt_ofEntries {entries : List (List Bool × σ)} {x : σ} {i : Int}
    (h : x ∈ recordsAt (ofEntries entries) i) : ∃ e ∈ entries, e.2 = x := by
  induction entries using List.reverseRecOn with
  | nil =>
    have hnone : recordsAt ([.empty] : IntTrie σ) i = [] := by
      unfold recordsAt nodeAt
      split
      · cases i.toNat <;> simp [IntNode.empty]
      · rfl
    change x ∈ recordsAt ([.empty] : IntTrie σ) i at h
    rw [hnone] at h
    cases h
  | append_singleton entries e ih =>
    rw [ofEntries_concat] at h
    rcases mem_recordsAt_insert h with h | rfl
    · obtain ⟨e', he', hx⟩ := ih h
      exact ⟨e', List.mem_append_left _ he', hx⟩
    · exact ⟨e, by simp, rfl⟩

/-- Behind a filing that is lost, a walk meets what was filed before. -/
theorem mem_walk_insert_of_leaves {entries : List (List Bool × σ)} {path : List Bool}
    (h : staysInRange (ofEntries entries) 0 path = false) {item x : σ} {node : Int}
    {bits : List Bool} (hx : x ∈ walk (insert (ofEntries entries) path item) node bits) :
    ∃ e ∈ entries, e.2 = x := by
  rw [walk_eq_nodesOn] at hx
  obtain ⟨i, -, hread⟩ := List.mem_flatMap.mp hx
  rw [recordsAt_insert_of_leaves h] at hread
  exact mem_recordsAt_ofEntries hread

/-- **The entries are filed without leaving the array exactly if there are at
most `2 ^ 31` nodes**, and then in the trie of natural indexes. -/
theorem faults_ofEntries (entries : List (List Bool × σ)) :
    (faults entries = false ↔ (NodeTrie.ofEntries entries).length ≤ 2 ^ 31) ∧
      ((NodeTrie.ofEntries entries).length ≤ 2 ^ 31 →
        ofEntries entries = ofNat (NodeTrie.ofEntries entries)) := by
  induction entries using List.reverseRecOn with
  | nil =>
    refine ⟨⟨fun _ => ?_, fun _ => rfl⟩, fun _ => rfl⟩
    show 1 ≤ 2 ^ 31
    norm_num
  | append_singleton entries e ih =>
    have hshaped := NodeTrie.shaped_ofEntries entries
    have hgrows : (NodeTrie.ofEntries entries).length ≤
        (NodeTrie.ofEntries (entries ++ [e])).length := by
      rw [NodeTrie.ofEntries_concat, NodeTrie.insert, NodeTrie.length_store]
      exact NodeTrie.length_le_length_descend _ _ _
    rw [faults_concat, ofEntries_concat]
    by_cases hfits : (NodeTrie.ofEntries entries).length ≤ 2 ^ 31
    · have hold := ih.2 hfits
      have hstays : staysInRange (ofNat (NodeTrie.ofEntries entries)) 0 e.1 = true ↔ _ :=
        (descend_ofNat hshaped hfits hshaped.root e.1).1
      rw [ih.1.mpr hfits, hold, Bool.false_or, Bool.not_eq_false', hstays,
        NodeTrie.ofEntries_concat]
      refine ⟨?_, insert_ofNat hshaped hfits e.1 e.2⟩
      rw [NodeTrie.insert, NodeTrie.length_store]
    · -- it had left the array before
      have hfaulted : faults entries = true := by
        simpa using ih.1.not.mpr hfits
      rw [hfaulted, Bool.true_or]
      exact ⟨⟨fun hfalse => absurd hfalse.symm Bool.false_ne_true, fun hle => by omega⟩,
        fun hle => by omega⟩

end IntTrie
end PacketGuard.Lib
