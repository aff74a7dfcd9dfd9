import PacketGuard.Ioc.Linear
import PacketGuard.Lib.Machine
import PacketGuard.Lib.Multimap
import PacketGuard.Lib.IntTrie

/-! The stateful index `IndicatorIndex` of `ioc/ioc.cpp`.  An operation returns
the new state with what the source function returns.  Identifiers wrap at 64
bits, generations at 32, and the children in the trie are `int`s; the number of
slots, which memory bounds, does not wrap.

Two things an operation may do have no defined effect in the source: a shift by
32 bits or more, for a range with a longer prefix, and an access outside of the
node array, when the index of a node does not fit an `int`.  The flag `faulted`,
which is no field of the source's class, records that this has happened; it is
never cleared, and what the model does afterwards says nothing. -/
namespace PacketGuard.Ioc
open PacketGuard.Core PacketGuard.Packet PacketGuard.Lib

structure IndexedIndicator where
  id : Nat := 0
  generation : Nat := 0
  active : Bool := true
  indicator : Indicator

structure IndicatorIndex where
  nextId : Nat := 1
  generation : Nat := 1
  records : List IndexedIndicator := []
  idToSlot : Std.ExtTreeMap Nat Nat compare := ∅
  keyToSlot : StrMap Nat := ∅
  domains : Multimap Str Nat := ∅
  hashes : Multimap Str Nat := ∅
  cidrTrie : IntTrie Nat := []
  faulted : Bool := false

/-- The first `count` bits of an address, the most significant one first.  The
source can shift for the first 32 only. -/
def addressBits (value : BitVec 32) (count : Nat) : List Bool :=
  (List.range count).map fun bit => (value >>> (31 - bit)) &&& 1 == 1

theorem length_addressBits (value : BitVec 32) (count : Nat) :
    (addressBits value count).length = count := by
  simp [addressBits]

/-- The path starts with the highest bit. -/
theorem addressBits_eq (value : BitVec 32) (count : Nat) :
    addressBits value count = (List.range count).map fun bit => value.getLsbD (31 - bit) := by
  have hbit : ∀ n : Nat, (value >>> n &&& 1 == 1) = value.getLsbD n := by
    intro n
    rw [Bool.eq_iff_iff, beq_iff_eq]
    constructor
    · intro heq
      have hzero := congrArg (fun u : BitVec 32 => u.getLsbD 0) heq
      simpa using hzero
    · intro hset
      apply BitVec.eq_of_getLsbD_eq
      intro i _
      by_cases h0 : i = 0
      · simp [h0, hset]
      · simp [h0]
  unfold addressBits
  simp only [hbit]

/-- The range that `index_record` files an address indicator under. -/
def indexedRange (ind : Indicator) : Option CIDRRange :=
  match ind.cidr with
  | some range => some range
  | none => ind.ip.map fun ip => ⟨ip, 32⟩

/-- The name that `index_record` files a domain or URL indicator under. -/
def indexedDomain (ind : Indicator) : Str :=
  normalizeDomain (if ind.type = .url then urlHost ind.normalized else ind.normalized)

namespace IndicatorIndex

/-- `records_[slot].active`, and `slot` is a slot. -/
def isActive (idx : IndicatorIndex) (slot : Nat) : Bool :=
  (idx.records[slot]?.map IndexedIndicator.active).getD false

/-! ## The indexes -/

def indexRecord (idx : IndicatorIndex) (slot : Nat) : IndicatorIndex :=
  match idx.records[slot]? with
  | none => idx
  | some rec =>
    if !rec.active then idx
    else
      let ind := rec.indicator
      match ind.type with
      | .domain | .url => { idx with domains := Multimap.push idx.domains (indexedDomain ind) slot }
      | .hash => { idx with hashes := Multimap.push idx.hashes (normalizeHash ind.normalized) slot }
      | .ip | .cidr =>
        match indexedRange ind with
        | none => idx
        | some range =>
          let path := addressBits range.network.value range.prefixLength
          let trie := if idx.cidrTrie.isEmpty then [IntNode.empty] else idx.cidrTrie
          { idx with
            cidrTrie := IntTrie.insert trie path slot
            faulted := decide (32 < path.length) || !IntTrie.staysInRange trie 0 path ||
              idx.faulted }
      | .unknown => idx

/-- One turn of the loop of `rebuild_indexes`. -/
def reindexSlot (idx : IndicatorIndex) (slot : Nat) : IndicatorIndex :=
  match idx.records[slot]? with
  | none => idx
  | some rec =>
    if !rec.active then idx
    else
      indexRecord { idx with keyToSlot := idx.keyToSlot.insert (indicatorKey rec.indicator) slot }
        slot

def rebuildIndexes (idx : IndicatorIndex) : IndicatorIndex :=
  (List.range idx.records.length).foldl reindexSlot
    { idx with keyToSlot := ∅, domains := ∅, hashes := ∅, cidrTrie := [IntNode.empty] }

/-- `generation_++`. -/
def nextGeneration (generation : Nat) : Nat := (generation + 1) % 2 ^ 32

/-! ## Operations -/

/-- What `add` does first: an indicator without normal form gets one. -/
def completeNormalized (ind : Indicator) : Indicator :=
  if ind.normalized.isEmpty then
    match ind.type with
    | .domain => { ind with normalized := normalizeDomain ind.raw }
    | .url => { ind with normalized := normalizeUrl ind.raw }
    | .hash => { ind with normalized := normalizeHash ind.raw }
    | _ => ind
  else ind

def add (idx : IndicatorIndex) (ind : Indicator) : IndicatorIndex × Nat :=
  let ind := completeNormalized ind
  let id := idx.nextId
  let slot := idx.records.length
  let idx :=
    { idx with
      nextId := (idx.nextId + 1) % 2 ^ 64
      generation := nextGeneration idx.generation
      records := idx.records ++ [⟨id, idx.generation, true, ind⟩]
      idToSlot := idx.idToSlot.insert id slot
      keyToSlot := idx.keyToSlot.insert (indicatorKey ind) slot }
  (indexRecord idx slot, id)

def addSet (idx : IndicatorIndex) (set : IndicatorSet) : IndicatorIndex × Nat :=
  set.indicators.foldl (fun (idx, added) ind => ((add idx ind).1, added + 1)) (idx, 0)

/-- What the operations on one record have in common: change it, stamp it with a
new generation and rebuild the indexes. -/
def changeRecord (idx : IndicatorIndex) (slot : Nat) (f : IndexedIndicator → IndexedIndicator) :
    IndicatorIndex :=
  rebuildIndexes
    { idx with
      generation := nextGeneration idx.generation
      records := idx.records.modify slot fun rec => { f rec with generation := idx.generation } }

/-- The record an identifier stands for, with its slot. -/
def recordOf (idx : IndicatorIndex) (id : Nat) : Option (Nat × IndexedIndicator) :=
  idx.idToSlot[id]?.bind fun slot => idx.records[slot]?.map fun rec => (slot, rec)

def removeId (idx : IndicatorIndex) (id : Nat) : IndicatorIndex × Bool :=
  match recordOf idx id with
  | none => (idx, false)
  | some (slot, rec) =>
    if !rec.active then (idx, false)
    else (changeRecord idx slot fun rec => { rec with active := false }, true)

def removeKey (idx : IndicatorIndex) (key : Str) : IndicatorIndex × Bool :=
  match idx.keyToSlot[key]?.bind fun slot => idx.records[slot]? with
  | none => (idx, false)
  | some rec => removeId idx rec.id

def reactivateId (idx : IndicatorIndex) (id : Nat) : IndicatorIndex × Bool :=
  match recordOf idx id with
  | none => (idx, false)
  | some (slot, rec) =>
    if rec.active then (idx, false)
    else (changeRecord idx slot fun rec => { rec with active := true }, true)

def updateRole (idx : IndicatorIndex) (id : Nat) (role : ListRole) : IndicatorIndex × Bool :=
  match recordOf idx id with
  | none => (idx, false)
  | some (slot, _) =>
    (changeRecord idx slot fun rec => { rec with indicator := { rec.indicator with role := role } },
      true)

def containsKey (idx : IndicatorIndex) (key : Str) : Bool :=
  match idx.keyToSlot[key]? with
  | none => false
  | some slot => idx.isActive slot

/-- One turn of the loop of `rebuild`. -/
def enterId (records : List IndexedIndicator) (m : Std.ExtTreeMap Nat Nat compare) (slot : Nat) :
    Std.ExtTreeMap Nat Nat compare :=
  match records[slot]? with
  | none => m
  | some rec => m.insert rec.id slot

def rebuild (idx : IndicatorIndex) : IndicatorIndex :=
  let idToSlot := (List.range idx.records.length).foldl (enterId idx.records) ∅
  let idx := rebuildIndexes { idx with idToSlot := idToSlot }
  { idx with generation := nextGeneration idx.generation }

def compact (idx : IndicatorIndex) : IndicatorIndex :=
  rebuild { idx with records := idx.records.filter (·.active) }

/-! ## Lookups -/

/-- The matches of the active records among `slots`. -/
def matchesAt (idx : IndicatorIndex) (slots : List Nat) (field value reason : Str) :
    List MatchResult :=
  slots.filterMap fun slot =>
    match idx.records[slot]? with
    | some rec => if rec.active then some ⟨rec.indicator, field, value, reason⟩ else none
    | none => none

def lookupIp (idx : IndicatorIndex) (ip : IPv4Address) (field : Str) : List MatchResult :=
  if idx.cidrTrie.isEmpty then []
  else
    matchesAt idx (IntTrie.walk idx.cidrTrie 0 (addressBits ip.value 32)) field (ipv4ToString ip)
      "stateful IOC index CIDR match".toList

def lookupDomain (idx : IndicatorIndex) (domain field : Str) : List MatchResult :=
  let observed := normalizeDomain domain
  idx.domains.toList.flatMap fun (key, slots) =>
    if domainMatches key observed then
      matchesAt idx slots field observed "stateful IOC index domain match".toList
    else []

def lookupHash (idx : IndicatorIndex) (hash field : Str) : List MatchResult :=
  let normalized := normalizeHash hash
  match idx.hashes[normalized]? with
  | none => []
  | some slots => matchesAt idx slots field normalized "stateful IOC index hash match".toList

def matchPacket (idx : IndicatorIndex) (md : PacketMetadata) : List MatchResult :=
  suppressAllowed <|
    (match md.ipv4 with
      | some ip =>
        lookupIp idx ip.source sourceField ++ lookupIp idx ip.destination destinationField
      | none => []) ++
    md.domainNames.flatMap fun name => lookupDomain idx name nameField

/-! ## The integrity check -/

/-- The entries `validate_integrity` reports. -/
def integrityErrors (idx : IndicatorIndex) : Diagnostics :=
  (idx.idToSlot.toList.flatMap fun (id, slot) =>
    if (idx.records[slot]?.map IndexedIndicator.id) = some id then []
    else
      Diagnostics.error "ioc.index.id".toList "id map points at an invalid record".toList slot) ++
  (idx.keyToSlot.toList.flatMap fun (_, slot) =>
    if idx.isActive slot then []
    else
      Diagnostics.error "ioc.index.key".toList
        "key map points at an inactive or invalid record".toList slot) ++
  (idx.cidrTrie.zipIdx.flatMap fun (node, i) =>
    ([false, true].flatMap fun branch =>
      if node.child branch < intOf idx.cidrTrie.length then []
      else
        Diagnostics.error "ioc.index.trie".toList
          "CIDR trie child points outside node array".toList i) ++
    (node.records.flatMap fun slot =>
      if idx.isActive slot then []
      else
        Diagnostics.error "ioc.index.trie-record".toList
          "CIDR trie record points at an inactive or invalid record".toList i))

/-- `validate_integrity`: the answer, and what it reports. -/
def validateIntegrity (idx : IndicatorIndex) : Bool × Diagnostics :=
  (idx.integrityErrors.isEmpty, idx.integrityErrors)

end IndicatorIndex

/-! ## Runs -/

/-- The operations that change an index. -/
inductive IndexOp
  | add (ind : Indicator)
  | addSet (set : IndicatorSet)
  | removeId (id : Nat)
  | removeKey (key : Str)
  | reactivateId (id : Nat)
  | updateRole (id : Nat) (role : ListRole)
  | rebuild
  | compact

open IndicatorIndex in
/-- An index under its operations, starting empty. -/
def indexMachine : Machine IndicatorIndex IndexOp where
  init := {}
  step idx
    | .add ind => (add idx ind).1
    | .addSet set => (addSet idx set).1
    | .removeId id => (removeId idx id).1
    | .removeKey key => (removeKey idx key).1
    | .reactivateId id => (reactivateId idx id).1
    | .updateRole id role => (updateRole idx id role).1
    | .rebuild => rebuild idx
    | .compact => compact idx

end PacketGuard.Ioc
