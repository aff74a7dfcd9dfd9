import PacketGuard.Ioc.Feed
import PacketGuard.Ioc.Nodes

/-! # Runs that fill the trie

Adding the ranges of a list of paths, one line of a feed for each, makes a trie
of the initial segments of these paths.  All paths of 30 bits, one for each
`/30` block of addresses, make the full trie of `2 ^ 31 - 1` nodes.  One half of
a block more, and there are as many nodes as an `int` can name (`crowded`); with
the other half there is one too many, and the last `add` leaves the array
(`overfull`).
-/
namespace PacketGuard.Ioc
open PacketGuard.Core PacketGuard.Lib
open IndicatorIndex

/-! ## Ranges from paths -/

/-- The address that starts with the bits of the path and goes on with zeros. -/
def networkOf (path : List Bool) : IPv4Address :=
  ⟨BitVec.ofFnLE fun i : Fin 32 => path.getD (31 - i) false⟩

/-- The range of a path, as a line of a feed. -/
def subnetEntry (path : List Bool) : FeedEntry where
  value := .cidr ⟨networkOf path, min path.length 32⟩ (Nat.min_le_right _ _)
  role := .block
  attributes := []

/-- The indicator that is read from the line. -/
def subnet (path : List Bool) : Indicator := (subnetEntry path).parsed []

/-- The bits of the masked network are those of the path. -/
theorem addressBits_networkOf {path : List Bool} (h : path.length ≤ 32) :
    addressBits ((networkOf path).value &&& cidrMask path.length) path.length = path := by
  rw [addressBits_eq]
  apply List.ext_getElem
  · simp
  · intro i hi hi'
    have hindex : 31 - (31 - i) = i := by omega
    rw [List.getElem_map, List.getElem_range, BitVec.getLsbD_and, getLsbD_cidrMask _ (by omega),
      decide_eq_true (by omega), Bool.and_true, networkOf, BitVec.getLsbD_ofFnLE,
        dif_pos (by omega)]
    simp only [hindex]
    exact List.getD_eq_getElem path false hi'

/-- A range is filed at its path. -/
theorem pathKey_subnet {path : List Bool} (h : path.length ≤ 32) :
    pathKey (subnet path) = some path := by
  have hkey : pathKey (subnet path) = some (addressBits
      ((networkOf path).value &&& cidrMask (min path.length 32)) (min path.length 32)) := rfl
  rw [hkey, Nat.min_eq_left h, addressBits_networkOf h]

theorem subnet_injOn {path path' : List Bool} (h : path.length ≤ 32) (h' : path'.length ≤ 32)
    (heq : subnet path = subnet path') : path = path' := by
  have hkey := pathKey_subnet h
  rw [heq, pathKey_subnet h'] at hkey
  exact (Option.some.inj hkey).symm

/-- The range contains the first of its addresses. -/
theorem contains_networkOf (path : List Bool) :
    ∃ range, (subnet path).cidr = some range ∧ range.contains (networkOf path) = true := by
  refine ⟨_, rfl, ?_⟩
  simp only [CIDRRange.contains, CIDRRange.masked]
  rw [beq_iff_eq, BitVec.and_assoc, BitVec.and_self]

theorem subnet_normalized (path : List Bool) : (subnet path).normalized ≠ [] :=
  FeedValue.content_ne_nil (v := (subnetEntry path).value) (by simp [subnetEntry, FeedValue.type])

/-! ## Runs that add ranges -/

/-- Add the ranges of the paths. -/
def fill (paths : List (List Bool)) : List IndexOp := paths.map fun path => .add (subnet path)

theorem fill_concat (paths : List (List Bool)) (path : List Bool) :
    fill (paths ++ [path]) = fill paths ++ [.add (subnet path)] := by
  simp [fill]

theorem activeIndicators_fill (paths : List (List Bool)) :
    activeIndicators (indexMachine.run (fill paths)).records = paths.map subnet := by
  have hnormal : ∀ ind ∈ paths.map subnet, ind.normalized ≠ [] := by
    intro ind hind
    obtain ⟨path, -, rfl⟩ := List.mem_map.mp hind
    exact subnet_normalized path
  have hactive := (records_addAll hnormal indexMachine.init).1
  have hfill : (paths.map subnet).map IndexOp.add = fill paths := by simp [fill]
  rw [hfill] at hactive
  exact hactive

section Fill
variable {paths : List (List Bool)} (hshort : ∀ path ∈ paths, path.length ≤ 32)
include hshort

/-- The trie needs the initial segments of the paths. -/
theorem nodesNeeded_fill :
    nodesNeeded (activeIndicators (indexMachine.run (fill paths)).records) =
      (NodeTrie.prefixes paths).card := by
  have hkeys : (paths.map subnet).filterMap pathKey = paths := by
    rw [List.filterMap_map]
    induction paths with
    | nil => rfl
    | cons path paths ih =>
      have hpath : (pathKey ∘ subnet) path = some path :=
        pathKey_subnet (hshort path List.mem_cons_self)
      rw [List.filterMap_cons_some hpath, ih fun path' hpath' =>
        hshort path' (List.mem_cons_of_mem _ hpath')]
  rw [activeIndicators_fill, nodesNeeded, hkeys]

theorem runFits_fill (hfew : (NodeTrie.prefixes paths).card ≤ 2 ^ 31) : RunFits (fill paths) := by
  rw [← nodesNeeded_fill hshort] at hfew
  refine runFits_of_short (fun op hop ind hind => ?_) fun before hbefore => ?_
  · obtain ⟨path, hpath, rfl⟩ := List.mem_map.mp hop
    rw [List.mem_singleton.mp hind]
    intro path' hkey
    rw [pathKey_subnet (hshort path hpath)] at hkey
    cases hkey
    exact hshort path hpath
  · -- a part of the run adds some of the ranges
    have hbefore' : before = fill (paths.take before.length) := by
      rw [fill, List.map_take]
      exact List.prefix_iff_eq_take.mp hbefore
    refine (nodesNeeded_le fun ind hind => ?_).trans hfew
    rw [hbefore', activeIndicators_fill, List.map_take] at hind
    rw [activeIndicators_fill]
    exact List.mem_of_mem_take hind

end Fill

/-! ## As many nodes as an `int` can name, and one more -/

/-- A half of the first `/30` block of addresses. -/
def half (b : Bool) : List Bool := List.replicate 30 false ++ [b]

/-- All `/30` blocks, and a half of one. -/
def crowded : List IndexOp := fill (NodeTrie.fullPaths 30 ++ [half false])

/-- And the other half. -/
def overfull : List IndexOp := crowded ++ [.add (subnet (half true))]

theorem length_half (b : Bool) : (half b).length = 31 := by
  simp [half]

theorem half_ne : half true ≠ half false := by
  simp [half]

theorem run_overfull :
    indexMachine.run overfull = (add (indexMachine.run crowded) (subnet (half true))).1 := by
  have hstep : ∀ idx ind, indexMachine.step idx (.add ind) = (add idx ind).1 := fun _ _ => rfl
  rw [overfull, indexMachine.run_concat, hstep]

theorem overfull_eq : overfull = fill (NodeTrie.fullPaths 30 ++ [half false] ++ [half true]) :=
  (fill_concat _ _).symm

theorem length_le_of_mem_crowded {path : List Bool}
    (h : path ∈ NodeTrie.fullPaths 30 ++ [half false]) :
    path.length ≤ 32 := by
  rcases List.mem_append.mp h with h | h
  · rw [NodeTrie.mem_fullPaths.mp h]
    norm_num
  · rw [List.mem_singleton.mp h, length_half]
    norm_num

theorem length_le_of_mem_overfull {path : List Bool}
    (h : path ∈ NodeTrie.fullPaths 30 ++ [half false] ++ [half true]) : path.length ≤ 32 := by
  rcases List.mem_append.mp h with h | h
  · exact length_le_of_mem_crowded h
  · rw [List.mem_singleton.mp h, length_half]
    norm_num

theorem card_prefixes_crowded :
    (NodeTrie.prefixes (NodeTrie.fullPaths 30 ++ [half false])).card = 2 ^ 31 := by
  have hfull := NodeTrie.card_prefixes_fullPaths 30
  have hblock : List.replicate 30 false ∈ NodeTrie.prefixes (NodeTrie.fullPaths 30) := by
    rw [NodeTrie.mem_prefixes_fullPaths, List.length_replicate]
  have hnew : half false ∉ NodeTrie.prefixes (NodeTrie.fullPaths 30) := by
    rw [NodeTrie.mem_prefixes_fullPaths, length_half]
    norm_num
  have hmore : (NodeTrie.prefixes (NodeTrie.fullPaths 30 ++ [half false])).card = _ :=
    NodeTrie.card_prefixes_concat hblock hnew
  omega

theorem card_prefixes_overfull :
    (NodeTrie.prefixes (NodeTrie.fullPaths 30 ++ [half false] ++ [half true])).card =
      2 ^ 31 + 1 := by
  have hblock : List.replicate 30 false ∈ NodeTrie.prefixes
      (NodeTrie.fullPaths 30 ++ [half false]) :=
    NodeTrie.mem_prefixes.mpr
      (Or.inr ⟨half false, List.mem_append_right _ List.mem_cons_self, List.prefix_append _ _⟩)
  have hnew : half true ∉ NodeTrie.prefixes (NodeTrie.fullPaths 30 ++ [half false]) := by
    rw [NodeTrie.mem_prefixes]
    rintro (hnil | ⟨path, hpath, hstart⟩)
    · exact absurd hnil (by simp [half])
    · rcases List.mem_append.mp hpath with hpath | hpath
      · have hlength := hstart.length_le
        rw [length_half, NodeTrie.mem_fullPaths.mp hpath] at hlength
        omega
      · -- the other half is as long, and another one
        rw [List.mem_singleton.mp hpath] at hstart
        exact absurd (hstart.eq_of_length (by rw [length_half, length_half])) half_ne
  have hmore :
      (NodeTrie.prefixes (NodeTrie.fullPaths 30 ++ [half false] ++ [half true])).card = _ :=
    NodeTrie.card_prefixes_concat hblock hnew
  rw [hmore, card_prefixes_crowded]

theorem runFits_crowded : RunFits crowded :=
  runFits_fill (fun _ => length_le_of_mem_crowded) card_prefixes_crowded.le

theorem nodesNeeded_crowded :
    nodesNeeded (activeIndicators (indexMachine.run crowded).records) = 2 ^ 31 :=
  (nodesNeeded_fill fun _ => length_le_of_mem_crowded).trans card_prefixes_crowded

theorem nodesNeeded_overfull :
    nodesNeeded (activeIndicators (indexMachine.run overfull).records) = 2 ^ 31 + 1 := by
  rw [overfull_eq]
  exact (nodesNeeded_fill fun _ => length_le_of_mem_overfull).trans card_prefixes_overfull

/-- The last `add` leaves the node array. -/
theorem faulted_overfull : (indexMachine.run overfull).faulted = true := by
  rw [← Bool.not_eq_false, faulted_run_iff]
  intro hfits
  have hnodes := (hfits overfull List.prefix_rfl).nodes
  rw [nodesNeeded_overfull] at hnodes
  omega

end PacketGuard.Ioc
